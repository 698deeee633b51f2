import PrismaTypes.Command.Arguments

/-!
# Usage texts

What is printed instead of a run.
-/

namespace PrismaTypes
namespace Command

def usageLine : String :=
  "Usage: prisma-extractor [OPTIONS] [SCHEMA_PATH] [OUTPUT_PATH]"

def helpText : String :=
  "\n".intercalate
    ["Generate TypeScript declarations and metadata from a Prisma schema",
     "",
     usageLine,
     "",
     "Arguments:",
     "  [SCHEMA_PATH]  Path to the Prisma schema (defaults to `prismaSchema` from the config)",
     "  [OUTPUT_PATH]  Path of the generated TypeScript file (defaults to `outputFile` from the config)",
     "",
     "Options:",
     "      --init           Write the default configuration file and exit",
     "  -c, --config <PATH>  Path to the configuration file",
     "  -m, --metadata       Also write metadata.json next to the output file",
     "  -h, --help           Print help",
     "  -V, --version        Print version"]

def UsageError.message : UsageError → String
  | unknownArgument => "error: unexpected argument found\n\n" ++ usageLine
  | invalidValue => "error: a value is required but none was supplied\n\n" ++ usageLine
  | tooManyValues => "error: unexpected value found; no more were expected\n\n" ++ usageLine
  | argumentConflict => "error: an argument cannot be used multiple times\n\n" ++ usageLine
  | displayHelp => helpText
  | displayVersion => "prisma-extractor 0.2.0"

end Command
end PrismaTypes
