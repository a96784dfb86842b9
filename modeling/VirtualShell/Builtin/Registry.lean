import VirtualShell.ByteMap

/-!
# Tables of commands

A table of commands by name, in byte order. No two commands have the same name.
-/

namespace VirtualShell

/-- Commands by name. -/
abbrev Registry (β : Type) := ByteMap β

/-- The table of commands whose names differ. -/
def Registry.ofCommands {β : Type} (commands : List (Bytes × β))
    (_apart : (commands.map (·.1)).Nodup) : Registry β := ByteMap.ofList commands

end VirtualShell
