import VirtualShell.Builtin.Aliases
import VirtualShell.Builtin.Commands
import VirtualShell.Builtin.Conditions
import VirtualShell.Builtin.Control
import VirtualShell.Builtin.Directories
import VirtualShell.Builtin.Files
import VirtualShell.Builtin.Filters
import VirtualShell.Builtin.Listing
import VirtualShell.Builtin.Names
import VirtualShell.Builtin.Nested
import VirtualShell.Builtin.Printing
import VirtualShell.Builtin.Search
import VirtualShell.Builtin.Variables

/-!
# The commands of the shell
-/

namespace VirtualShell.Builtin

/-- The commands of the shell. -/
def all : List Builtin := [
  echo, trueCommand, falseCommand, pwd, cd, ls, cat, mkdir, rmdir, rm, touch, mv, cp, ln, readlink,
  stat, chmod, realpath, basename, dirname, glob, find, grep, head, tail, wc, sort, uniq, tee, seq,
  printf, read, sleep, exportCommand, unset, env, printenv, aliasCommand, unalias, which,
  typeCommand, helpCommand, source, dot, xargs, test, bracket, exit, versionCommand]

/-- The commands with their names. -/
def named : List (Bytes × Builtin) := all.map fun b => (b.name, b)

theorem nodup_names : (named.map (·.1)).Nodup := by decide

/-- The table of the commands. -/
def standard : Registry Builtin := .ofCommands named nodup_names

end VirtualShell.Builtin
