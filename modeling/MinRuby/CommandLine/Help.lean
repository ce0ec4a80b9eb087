/-!
# Help

The texts that explain the command line.
-/

namespace MinRuby

/-- The short reminder of the arguments. -/
def usageText : String :=
  "usage: minruby [-h] [-e CODE] [-i] [--parse] [--debug] [--version]
               [script] ...
"

/-- The help on the arguments. -/
def helpText : String :=
  usageText ++ "
MinRuby - a tree-walking interpreter for a small Ruby subset

positional arguments:
  script             MinRuby script file to execute
  args               Further files, left for the program to read with
                     minruby_load

options:
  -h, --help         show this help message and exit
  -e CODE            Run CODE instead of a script file
  -i, --interactive  Start interactive mode
  --parse            Parse the program and show its tree instead of running it
  --debug            Trace parsing and evaluation
  --version          show program's version number and exit

Examples:
  minruby script.rb                  # Run a MinRuby script
  minruby interp.rb script.rb        # Run an interpreter written in MinRuby on script.rb
  minruby -e 'p(1 + 2)'              # Run inline code
  minruby --parse script.rb          # Parse and show the tree
  minruby --debug script.rb          # Run with debug output
  minruby -i                         # Interactive mode
" ++ "        \n"

end MinRuby
