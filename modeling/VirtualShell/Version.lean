import VirtualShell.Text.Bytes

/-!
# The version of the shell
-/

namespace VirtualShell

/-- The version of the shell. -/
def version : Bytes := ascii "1.0.0"

/-- The version with the name of the shell and the state of its sources. -/
def versionLine : Bytes := ascii "vsh v" ++ version ++ ascii " (git unknown)\n"

end VirtualShell
