import LambdaLayout.Text.Basic

/-!
The texts that the program prints about itself.
-/

namespace LambdaLayout.Help

/-- Lines with their ends. -/
def page (lines : List String) : Text := lines.flatMap fun line => line.toList ++ ['\n']

/-- The name and version of the program. -/
def version : Text := page ["lxfmt 0.1.0"]

/-- The help in short. -/
def short : Text := page
  ["Lays out extended lambdas in Python sources",
   "",
   "Usage: lxfmt [OPTIONS] [FILE]... [-- <BACKEND_ARG>...]",
   "",
   "Arguments:",
   "  [FILE]...         Files to format; reads from stdin when none are given",
   "  [BACKEND_ARG]...  Arguments passed through to the backend",
   "",
   "Options:",
   "  -d, --diff                     Prints the diff for the fixed source",
   "  -i, --in-place                 Makes changes to files in place",
   "  -q, --quiet                    Outputs nothing and sets the return value",
   "  -p, --parallel                 Runs in parallel when formatting multiple files",
   "      --adapter <ADAPTER>        Style backend run before the layout pass " ++
     "[default: dummy] [possible values: dummy, yapf, black]",
   "      --keyword <KEYWORD>        Name of the lambda keyword [default: def_]",
   "      --log-filter <LOG_FILTER>  Tracing filter directives for log output on stderr " ++
     "[default: warn]",
   "      --log-format <LOG_FORMAT>  Log output format [default: compact]",
   "  -h, --help                     Print help (see more with '--help')",
   "  -V, --version                  Print version"]

/-- The help in full. -/
def full : Text := page
  ["Lays out extended lambdas in Python sources",
   "",
   "Usage: lxfmt [OPTIONS] [FILE]... [-- <BACKEND_ARG>...]",
   "",
   "Arguments:",
   "  [FILE]...",
   "          Files to format; reads from stdin when none are given",
   "",
   "  [BACKEND_ARG]...",
   "          Arguments passed through to the backend",
   "",
   "Options:",
   "  -d, --diff",
   "          Prints the diff for the fixed source",
   "",
   "  -i, --in-place",
   "          Makes changes to files in place",
   "",
   "  -q, --quiet",
   "          Outputs nothing and sets the return value",
   "",
   "  -p, --parallel",
   "          Runs in parallel when formatting multiple files",
   "",
   "      --adapter <ADAPTER>",
   "          Style backend run before the layout pass",
   "",
   "          Possible values:",
   "          - dummy: No backend; the source itself is laid out",
   "          - yapf:  Pipes the source through `yapf`",
   "          - black: Pipes the source through `black`",
   "          ",
   "          [default: dummy]",
   "",
   "      --keyword <KEYWORD>",
   "          Name of the lambda keyword",
   "          ",
   "          [default: def_]",
   "",
   "      --log-filter <LOG_FILTER>",
   "          Tracing filter directives for log output on stderr",
   "          ",
   "          [default: warn]",
   "",
   "      --log-format <LOG_FORMAT>",
   "          Log output format",
   "          ",
   "          [default: compact]",
   "",
   "  -h, --help",
   "          Print help (see a summary with '-h')",
   "",
   "  -V, --version",
   "          Print version"]

end LambdaLayout.Help
