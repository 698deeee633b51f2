import Mathlib.Data.List.Basic
import Mathlib.Data.List.Nodup
import PrismaTypes.Proofs.OrderedMembers
import PrismaTypes.Schema.Namespace

/-!
# Runs of declarations

Names are declared one after the other, models and enums as they come, and some calls are refused.
What a namespace holds after such a run can be told from the answers alone:

* one call either adds its name at the end or changes nothing (`Namespace.attempt_eq`);
* so the names of a run are those of the calls that succeeded, in order, each once and none of them
  reserved;
* a refused call might as well not have been made (`Namespace.attemptAll_eraseIdx`).
-/

namespace PrismaTypes

theorem Scalar.isSome_ofKeyword?_iff {name : String} :
    (Scalar.ofKeyword? name).isSome = true ↔ ∃ k : Scalar, k.keyword = name := by
  have hall : ∀ k : Scalar, k ∈ Scalar.all := by
    intro k
    cases k <;> decide
  simp [Scalar.ofKeyword?, hall]

namespace Namespace

/-! ## Declaring one name -/

/-- A call that declares a name. -/
structure Call where
  name : String
  kind : Declaration
  deriving DecidableEq, Repr

/-- The names that are declared. -/
def names (n : Namespace) : List String :=
  n.declarations.map Prod.fst

/-- The namespace with one more name, whether that is allowed or not. -/
def add (n : Namespace) (c : Call) : Namespace :=
  ⟨n.declarations ++ [(c.name, c.kind)]⟩

theorem declare_eq (n : Namespace) (c : Call) :
    n.declare c.name c.kind =
      if isReserved c.name then .error (.reserved c.kind.nameKind c.name)
      else if c.name ∈ n.names then .error (.duplicate c.kind.nameKind c.name)
      else .ok (n.add c) := by
  have hget : (n.get? c.name).isSome = true ↔ c.name ∈ n.names := Members.isSome_get?_iff
  simp only [declare, add, hget]

/-! ## Runs -/

/-- What a call answers. -/
abbrev Answer := Except SchemaError Unit

/-- The answer to a call, and the namespace after it. -/
def attempt (n : Namespace) (c : Call) : Answer × Namespace :=
  match n.declare c.name c.kind with
  | .ok next => (.ok (), next)
  | .error e => (.error e, n)

/-- The answers to all calls in order, and the namespace after the last one. -/
def attemptAll (n : Namespace) : List Call → List Answer × Namespace
  | [] => ([], n)
  | c :: calls =>
      let first := n.attempt c
      let later := first.2.attemptAll calls
      (first.1 :: later.1, later.2)

/-- The call stands at the given place and was answered with success. -/
def Granted (calls : List Call) (answers : List Answer) (i : Nat) (c : Call) : Prop :=
  calls[i]? = some c ∧ answers[i]? = some (.ok ())

/-- The error for a call that is refused. -/
def refusal (c : Call) : SchemaError :=
  if isReserved c.name then .reserved c.kind.nameKind c.name
  else .duplicate c.kind.nameKind c.name

/-- A call succeeds and adds its name, or it is refused and nothing changes. -/
theorem attempt_eq (n : Namespace) (c : Call) :
    n.attempt c
      = if isReserved c.name = false ∧ c.name ∉ n.names then (.ok (), n.add c)
        else (.error (refusal c), n) := by
  rw [attempt, declare_eq]
  by_cases hreserved : isReserved c.name = true
  · simp [refusal, hreserved]
  · by_cases hname : c.name ∈ n.names <;> simp [refusal, hreserved, hname]

variable {n : Namespace} {c : Call} {calls : List Call} {i : Nat}

theorem attempt_of_ok (h : (n.attempt c).1 = .ok ()) :
    isReserved c.name = false ∧ c.name ∉ n.names ∧ n.attempt c = (.ok (), n.add c) := by
  rw [attempt_eq] at h ⊢
  split at h
  · rename_i hfree
    exact ⟨hfree.1, hfree.2, if_pos hfree⟩
  · cases h

theorem attempt_of_ne_ok (h : (n.attempt c).1 ≠ .ok ()) :
    n.attempt c = (.error (refusal c), n) := by
  rw [attempt_eq] at h ⊢
  split at h
  · exact absurd rfl h
  · rename_i hfree
    exact if_neg hfree

@[simp] theorem length_attemptAll (n : Namespace) (calls : List Call) :
    (n.attemptAll calls).1.length = calls.length := by
  induction calls generalizing n with
  | nil =>
      rfl
  | cons c calls ih =>
      simp [attemptAll, ih]

/-- The answer at a place is given by the namespace after the calls before it. -/
theorem getElem?_attemptAll (h : calls[i]? = some c) :
    (n.attemptAll calls).1[i]? = some (((n.attemptAll (calls.take i)).2.attempt c).1) := by
  induction calls generalizing n i with
  | nil =>
      simp at h
  | cons first calls ih =>
      cases i with
      | zero =>
          cases h
          rfl
      | succ i =>
          simpa [attemptAll] using ih (n := (n.attempt first).2) (by simpa using h)

/-- The first answers are those to the first calls. -/
theorem take_attemptAll (n : Namespace) (calls : List Call) (i : Nat) :
    (n.attemptAll (calls.take i)).1 = (n.attemptAll calls).1.take i := by
  induction calls generalizing n i with
  | nil =>
      simp [attemptAll]
  | cons c calls ih =>
      cases i with
      | zero =>
          rfl
      | succ i =>
          simp [attemptAll, ih]

/-! ## What a run leaves behind -/

/-- Each name stands for one declaration, and none is reserved. -/
structure Valid (n : Namespace) : Prop where
  distinct : n.names.Nodup
  free : ∀ name ∈ n.names, isReserved name = false

theorem valid_empty : ({} : Namespace).Valid :=
  ⟨List.nodup_nil, by simp [names]⟩

theorem Valid.attempt (h : n.Valid) (c : Call) : (n.attempt c).2.Valid := by
  by_cases hok : (n.attempt c).1 = .ok ()
  · obtain ⟨hfree, hnew, heq⟩ := attempt_of_ok hok
    have hnames : (n.add c).names = n.names.concat c.name := by simp [names, add]
    rw [heq]
    refine ⟨hnames ▸ h.distinct.concat hnew, fun name hname => ?_⟩
    rw [hnames, List.concat_eq_append] at hname
    rcases List.mem_append.1 hname with hname | hname
    · exact h.free name hname
    · rw [List.mem_singleton.1 hname]
      exact hfree
  · rw [attempt_of_ne_ok hok]
    exact h

theorem Valid.attemptAll (h : n.Valid) (calls : List Call) : (n.attemptAll calls).2.Valid := by
  induction calls generalizing n with
  | nil =>
      exact h
  | cons c calls ih =>
      exact ih (h.attempt c)

/-- The word of a scalar is reserved, and reserved names never get in. -/
theorem Valid.get?_keyword (h : n.Valid) (k : Scalar) : n.get? k.keyword = none := by
  cases hget : n.get? k.keyword with
  | none =>
      rfl
  | some kind =>
      have hname : k.keyword ∈ n.names := List.mem_map_of_mem (Members.mem_of_get? hget)
      have hfree := h.free _ hname
      simp [isReserved, Scalar.isSome_ofKeyword?_iff.2 ⟨k, rfl⟩] at hfree

/-- The first call is the one at place zero; all others move up by one. -/
theorem exists_granted_cons_iff {a : Answer} {answers : List Answer} {k : Call} :
    (∃ i, Granted (c :: calls) (a :: answers) i k) ↔
      (c = k ∧ a = .ok ()) ∨ ∃ i, Granted calls answers i k := by
  constructor
  · rintro ⟨i, hcall, hanswer⟩
    cases i with
    | zero =>
        exact .inl ⟨by simpa using hcall, by simpa using hanswer⟩
    | succ i =>
        exact .inr ⟨i, by simpa using hcall, by simpa using hanswer⟩
  · rintro (⟨rfl, rfl⟩ | ⟨i, hcall, hanswer⟩)
    · exact ⟨0, rfl, rfl⟩
    · exact ⟨i + 1, by simpa using hcall, by simpa using hanswer⟩

/-- A declaration comes from before the run or from a call that succeeded. -/
theorem mem_declarations_attemptAll {d : String × Declaration} :
    d ∈ (n.attemptAll calls).2.declarations ↔
      d ∈ n.declarations ∨ ∃ i, Granted calls (n.attemptAll calls).1 i ⟨d.1, d.2⟩ := by
  induction calls generalizing n with
  | nil =>
      simp [attemptAll, Granted]
  | cons c calls ih =>
      simp only [attemptAll, ih, exists_granted_cons_iff, ← or_assoc]
      refine or_congr_left ?_
      by_cases hok : (n.attempt c).1 = .ok ()
      · rw [(attempt_of_ok hok).2.2]
        rcases c with ⟨name, kind⟩
        simp [add, Prod.ext_iff, eq_comm]
      · rw [attempt_of_ne_ok hok]
        simp

theorem mem_names_attemptAll {name : String} :
    name ∈ (n.attemptAll calls).2.names ↔
      name ∈ n.names ∨ ∃ i k, Granted calls (n.attemptAll calls).1 i k ∧ k.name = name := by
  constructor
  · intro h
    obtain ⟨d, hd, rfl⟩ := List.mem_map.1 h
    rcases mem_declarations_attemptAll.1 hd with hd | ⟨i, hgranted⟩
    · exact .inl (List.mem_map_of_mem hd)
    · exact .inr ⟨i, _, hgranted, rfl⟩
  · rintro (h | ⟨i, k, hgranted, rfl⟩)
    · obtain ⟨d, hd, rfl⟩ := List.mem_map.1 h
      exact List.mem_map_of_mem (mem_declarations_attemptAll.2 (.inl hd))
    · have hmem : (k.name, k.kind) ∈ (n.attemptAll calls).2.declarations :=
        mem_declarations_attemptAll.2 (.inr ⟨i, hgranted⟩)
      exact List.mem_map_of_mem hmem

theorem size_attemptAll (n : Namespace) (calls : List Call) :
    (n.attemptAll calls).2.size = n.size + (n.attemptAll calls).1.countP (·.isOk) := by
  induction calls generalizing n with
  | nil =>
      rfl
  | cons c calls ih =>
      simp only [attemptAll, ih, List.countP_cons]
      by_cases hok : (n.attempt c).1 = .ok ()
      · rw [(attempt_of_ok hok).2.2]
        simp only [add, size, List.length_append, List.length_singleton, Except.isOk,
          Except.toBool, if_true]
        omega
      · rw [attempt_of_ne_ok hok]
        simp [Except.isOk, Except.toBool]

/-- Without a call that is refused, all others are answered as before and the names are the same. -/
theorem attemptAll_eraseIdx (hi : i < calls.length)
    (h : (n.attemptAll calls).1[i]? ≠ some (.ok ())) :
    n.attemptAll (calls.eraseIdx i)
      = ((n.attemptAll calls).1.eraseIdx i, (n.attemptAll calls).2) := by
  induction calls generalizing n i with
  | nil =>
      simp at hi
  | cons c calls ih =>
      cases i with
      | zero =>
          have hrefused : (n.attempt c).1 ≠ .ok () := by simpa [attemptAll] using h
          simp [attemptAll, attempt_of_ne_ok hrefused]
      | succ i =>
          have hrest := ih (n := (n.attempt c).2) (i := i) (by simpa using hi)
            (by simpa [attemptAll] using h)
          simp [attemptAll, hrest]

/-- The names that are taken before a place are those of the calls that succeeded before it. -/
theorem mem_names_take_iff {name : String} :
    name ∈ (({} : Namespace).attemptAll (calls.take i)).2.names ↔
      ∃ j < i, ∃ k, Granted calls (({} : Namespace).attemptAll calls).1 j k ∧ k.name = name := by
  rw [mem_names_attemptAll, take_attemptAll]
  simp only [names, List.map_nil, List.not_mem_nil, false_or, Granted]
  constructor
  · rintro ⟨j, k, ⟨hcall, hanswer⟩, hname⟩
    rw [List.getElem?_take] at hcall hanswer
    split at hcall
    · rename_i hj
      rw [if_pos hj] at hanswer
      exact ⟨j, hj, k, ⟨hcall, hanswer⟩, hname⟩
    · cases hcall
  · rintro ⟨j, hj, k, ⟨hcall, hanswer⟩, hname⟩
    exact ⟨j, k, ⟨by rw [List.getElem?_take_of_lt hj, hcall],
      by rw [List.getElem?_take_of_lt hj, hanswer]⟩, hname⟩

/-! ## Results -/

/-- How calls, their answers and the names in the end belong together. -/
structure Records (calls : List Call) (answers : List Answer) (n : Namespace) : Prop where
  length_eq : answers.length = calls.length
  /-- A call gets a name that is not reserved and that no call before it got. -/
  granted_iff : ∀ (i : Nat) (c : Call), calls[i]? = some c →
    (answers[i]? = some (.ok ()) ↔
      isReserved c.name = false ∧ ∀ j < i, ∀ k, Granted calls answers j k → k.name ≠ c.name)
  refusal_eq : ∀ (i : Nat) (c : Call), calls[i]? = some c → answers[i]? ≠ some (.ok ()) →
    answers[i]? = some (.error (refusal c))
  /-- A refused call leaves no trace, neither in the other answers nor in the names. -/
  eraseIdx_eq : ∀ i, i < calls.length → answers[i]? ≠ some (.ok ()) →
    ({} : Namespace).attemptAll (calls.eraseIdx i) = (answers.eraseIdx i, n)
  /-- Of the calls for one name at most one succeeds. -/
  granted_unique : ∀ i j c k, Granted calls answers i c → Granted calls answers j k →
    c.name = k.name → i = j
  get?_eq_some_iff : ∀ name kind,
    n.get? name = some kind ↔ ∃ i, Granted calls answers i ⟨name, kind⟩
  size_eq : n.size = answers.countP (·.isOk)
  isEmpty_iff : n.isEmpty = true ↔ ∀ a ∈ answers, a ≠ .ok ()
  /-- Scalars come first, and no declaration is hidden behind one. -/
  resolve_scalar : ∀ k : Scalar, n.resolve k.keyword = some .scalar ∧ n.get? k.keyword = none
  resolve_other : ∀ name, (∀ k : Scalar, k.keyword ≠ name) →
    n.resolve name = (n.get? name).map Declaration.fieldKind

theorem granted_iff_of_attemptAll (h : calls[i]? = some c) :
    (({} : Namespace).attemptAll calls).1[i]? = some (.ok ()) ↔
      isReserved c.name = false ∧
        ∀ j < i, ∀ k, Granted calls (({} : Namespace).attemptAll calls).1 j k →
          k.name ≠ c.name := by
  have hnew : c.name ∉ (({} : Namespace).attemptAll (calls.take i)).2.names ↔
      ∀ j < i, ∀ k, Granted calls (({} : Namespace).attemptAll calls).1 j k →
        k.name ≠ c.name := by
    rw [mem_names_take_iff]
    push Not
    rfl
  rw [getElem?_attemptAll h, attempt_eq, ← hnew]
  split
  · rename_i hfree
    simp [hfree]
  · rename_i hfree
    simp [hfree]

/-- Of two successful calls for one name the later one would have found it taken. -/
theorem granted_unique_of_attemptAll {j : Nat} {k : Call}
    (hc : Granted calls (({} : Namespace).attemptAll calls).1 i c)
    (hk : Granted calls (({} : Namespace).attemptAll calls).1 j k) (hname : c.name = k.name) :
    i = j := by
  rcases Nat.lt_trichotomy i j with hlt | heq | hlt
  · exact absurd hname (((granted_iff_of_attemptAll hk.1).1 hk.2).2 i hlt c hc)
  · exact heq
  · exact absurd hname.symm (((granted_iff_of_attemptAll hc.1).1 hc.2).2 j hlt k hk)

theorem isEmpty_attemptAll_iff :
    (({} : Namespace).attemptAll calls).2.isEmpty = true ↔
      ∀ a ∈ (({} : Namespace).attemptAll calls).1, a ≠ .ok () := by
  have hempty : ∀ n : Namespace, n.isEmpty = true ↔ n.size = 0 := by
    intro n
    simp [isEmpty, size]
  have hok : ∀ a : Answer, a.isOk = true ↔ a = .ok () := by
    intro a
    cases a <;> simp [Except.isOk, Except.toBool]
  have hsize := size_attemptAll {} calls
  rw [hempty, hsize, show ({} : Namespace).size = 0 from rfl, Nat.zero_add, List.countP_eq_zero]
  exact forall₂_congr fun a _ => not_congr (hok a)

/-- Whatever names are declared one after the other, as models or as enums, on a fresh namespace: a
call succeeds exactly if its name is neither reserved nor taken by a call that succeeded before. A
refused call could be left out without a difference to any other answer, so it changes nothing that
is asked for later. In the end the namespace holds the names of the successful calls. -/
theorem records_attemptAll (calls : List Call) :
    Records calls (({} : Namespace).attemptAll calls).1 (({} : Namespace).attemptAll calls).2 where
  length_eq := length_attemptAll _ _
  granted_iff _ _ hc := granted_iff_of_attemptAll hc
  refusal_eq i c hc hrefused := by
    rw [getElem?_attemptAll hc] at hrefused ⊢
    rw [attempt_of_ne_ok fun hok => hrefused (congrArg some hok)]
  eraseIdx_eq _ hi hrefused := attemptAll_eraseIdx hi hrefused
  granted_unique _ _ _ _ hc hk hname := granted_unique_of_attemptAll hc hk hname
  get?_eq_some_iff name kind := by
    have hvalid := valid_empty.attemptAll calls
    rw [get?, Members.get?_eq_some_iff hvalid.distinct, mem_declarations_attemptAll]
    simp
  size_eq := by
    rw [size_attemptAll]
    exact Nat.zero_add _
  isEmpty_iff := isEmpty_attemptAll_iff
  resolve_scalar k :=
    ⟨if_pos (Scalar.isSome_ofKeyword?_iff.2 ⟨k, rfl⟩),
      (valid_empty.attemptAll calls).get?_keyword k⟩
  resolve_other name hname :=
    if_neg fun hscalar => (Scalar.isSome_ofKeyword?_iff.1 hscalar).elim hname

/-- A name is taken by the other kind, a reserved one is refused, and a fresh one follows. -/
theorem records_attemptAll_mixed :
    let calls : List Call :=
      [⟨"User", .model⟩, ⟨"String", .enum⟩, ⟨"User", .enum⟩, ⟨"Role", .enum⟩]
    let run := ({} : Namespace).attemptAll calls
    run.1 = [.ok (), .error (.reserved .enum "String"), .error (.duplicate .enum "User"), .ok ()] ∧
      ({} : Namespace).attemptAll (calls.eraseIdx 2) = (run.1.eraseIdx 2, run.2) ∧
      run.2.get? "User" = some .model := by
  intro calls run
  have hrecords := records_attemptAll calls
  have hanswers : run.1 = [.ok (), .error (.reserved .enum "String"),
      .error (.duplicate .enum "User"), .ok ()] := by
    decide +kernel
  refine ⟨hanswers, hrecords.eraseIdx_eq 2 (by decide) ?_, ?_⟩
  · rw [show (attemptAll {} calls).1 = _ from hanswers]
    decide
  · refine (hrecords.get?_eq_some_iff "User" .model).2 ⟨0, rfl, ?_⟩
    rw [show (attemptAll {} calls).1 = _ from hanswers]
    rfl

end Namespace

end PrismaTypes
