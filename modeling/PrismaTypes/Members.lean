/-!
# Members in order

Association lists with text keys. Setting a key that is present replaces its value in place; a new
key goes to the end. So keys keep the order in which they first appeared.
-/

namespace PrismaTypes
namespace Members

variable {α : Type}

def get? (key : String) : List (String × α) → Option α
  | [] => none
  | (k, v) :: rest => if k = key then some v else get? key rest

def set (key : String) (value : α) : List (String × α) → List (String × α)
  | [] => [(key, value)]
  | (k, v) :: rest => if k = key then (k, value) :: rest else (k, v) :: set key value rest

/-- Sets all pairs, from left to right. -/
def setAll (pairs members : List (String × α)) : List (String × α) :=
  pairs.foldl (fun acc pair => set pair.1 pair.2 acc) members

/-- The first place and the last value of every key. -/
def ofPairs (pairs : List (String × α)) : List (String × α) :=
  setAll pairs []

end Members
end PrismaTypes
