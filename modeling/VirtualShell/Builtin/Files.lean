import VirtualShell.Shell.Builtin
import VirtualShell.Tree.Mode

/-!
# Files and directories: `cat`, `mkdir`, `rmdir`, `rm`, `touch`, `mv`, `cp`, `ln`, `readlink`,
`realpath`, `chmod` and `tee`

Operands are worked off in order; one that fails is complained about and does not keep the next from
being worked off.
-/

namespace VirtualShell.Builtin

open ShellAction

/-! ## Content -/

def cat : Builtin where
  name := ascii "cat"
  summary := ascii "concatenate files to standard output"
  help := [
    ascii "Usage: cat [FILE ...]",
    ascii "Concatenate FILEs to standard output.",
    ascii "With no FILE, or when FILE is -, read standard input."]
  answer c := do
    let (content, good) ← c.readInputs c.arguments
    out content
    return statusOf [good]

def tee : Builtin where
  name := ascii "tee"
  summary := ascii "copy input to output and files"
  help := [
    ascii "Usage: tee [-a] FILE ...",
    ascii "Copy standard input to standard output and to each FILE.",
    ascii "-a appends instead of overwriting."]
  answer c := c.withFlags "a" fun flags => do
    let status ← c.forOperands (fun path => writePath path c.piped (flags.has 'a')) flags.operands
    out c.piped
    return status

def touch : Builtin where
  name := ascii "touch"
  summary := ascii "create files or update timestamps"
  help := [
    ascii "Usage: touch FILE ...",
    ascii "Update access and modification times, creating empty files as needed."]
  answer c := c.withFlags "" fun flags => c.requiring 1 flags.operands do
    let s ← session
    c.forOperands (fun path => perform fun fs now => fs.touch now (s.resolve path) s.owner)
      flags.operands

/-! ## Making and removing -/

def mkdir : Builtin where
  name := ascii "mkdir"
  summary := ascii "create directories"
  help := [
    ascii "Usage: mkdir [-p] DIRECTORY ...",
    ascii "Create directories.",
    ascii "-p creates missing parents and ignores existing directories."]
  answer c := c.withFlags "p" fun flags => c.requiring 1 flags.operands do
    let s ← session
    c.forOperands
      (fun path => perform fun fs now =>
        fs.makeDirectory now (s.resolve path) (flags.has 'p') s.owner)
      flags.operands

def rmdir : Builtin where
  name := ascii "rmdir"
  summary := ascii "remove empty directories"
  help := [
    ascii "Usage: rmdir DIRECTORY ...",
    ascii "Remove empty directories."]
  answer c := c.withFlags "" fun flags => c.requiring 1 flags.operands do
    let s ← session
    c.forOperands (fun path => perform fun fs _ => fs.removeDirectory (s.resolve path))
      flags.operands

/-- Removes what stands at a path. -/
def removePath (c : Call) (recursive force : Bool) (operand : Bytes) : ShellAction Bool := do
  let path ← resolve operand
  match (← tree).lstat path with
  | .error fault => do
    if force then return true
    reportFault c.name fault
    return false
  | .ok node =>
    if !node.isDirectory then check c.name (← perform fun fs _ => fs.unlink path)
    else if recursive then check c.name (← perform fun fs _ => fs.removeDirectory path true)
    else do
      c.complain .isADirectory (ascii "cannot remove '" ++ operand ++ ascii "': Is a directory")
      return false

def rm : Builtin where
  name := ascii "rm"
  summary := ascii "remove files or directory trees"
  help := [
    ascii "Usage: rm [-r] [-f] PATH ...",
    ascii "Remove files or directories.",
    ascii "-r removes directories and their contents, -f ignores missing paths."]
  answer c := c.withFlags "rRf" fun flags =>
    let recursive := flags.has 'r' || flags.has 'R'
    let force := flags.has 'f'
    c.requiring (if force then 0 else 1) flags.operands do
      forEach flags.operands (removePath c recursive force)

/-! ## Moving, copying and linking -/

/-- Goes on with the sources and the resolved destination. Several sources ask for a directory. -/
def withDestination (c : Call) (operands : List Bytes)
    (k : List Bytes → Bytes → ShellAction Int) : ShellAction Int :=
  c.requiring 2 operands do
    let named := operands.getLastD []
    let destination ← resolve named
    if 2 < operands.length ∧ !(← tree).leadsToDirectory destination then
      c.complain .notADirectory (ascii "target '" ++ named ++ ascii "' is not a directory")
      return 1
    k operands.dropLast destination

def mv : Builtin where
  name := ascii "mv"
  summary := ascii "move or rename files"
  help := [
    ascii "Usage: mv SOURCE ... DEST",
    ascii "Rename SOURCE to DEST, or move SOURCEs into directory DEST."]
  answer c := c.withFlags "f" fun flags =>
    withDestination c flags.operands fun sources destination => do
      let intoDirectory := (← tree).leadsToDirectory destination
      c.forOperands
        (fun operand => do
          let source ← resolve operand
          let target :=
            if intoDirectory then Path.join destination (Path.base source) else destination
          perform fun fs now => fs.rename now source target)
        sources

def cp : Builtin where
  name := ascii "cp"
  summary := ascii "copy files and directories"
  help := [
    ascii "Usage: cp [-r] SOURCE ... DEST",
    ascii "Copy SOURCE to DEST, or SOURCEs into directory DEST.",
    ascii "-r copies directories recursively."]
  answer c := c.withFlags "rRf" fun flags =>
    withDestination c flags.operands fun sources destination => do
      let recursive := flags.has 'r' || flags.has 'R'
      c.forOperands
        (fun operand => do
          let source ← resolve operand
          perform fun fs now => fs.copy now source destination recursive)
        sources

def ln : Builtin where
  name := ascii "ln"
  summary := ascii "create symbolic links"
  help := [
    ascii "Usage: ln -s TARGET LINK_NAME",
    ascii "Create a symbolic link named LINK_NAME pointing at TARGET."]
  answer c := c.withFlags "sf" fun flags => do
    if !flags.has 's' then
      return ← c.refuse 1 (ascii "hard links are not supported") [ascii "Use ln -s"]
    match flags.operands with
    | target :: named :: _ => do
      let s ← session
      let path := s.resolve named
      let existing := (← tree).lstat path
      let path := match existing with
        | .ok node =>
          if node.isDirectory then Path.join path (Path.base (Path.resolve target)) else path
        | .error _ => path
      let replaces := match existing with
        | .ok node => !node.isDirectory && flags.has 'f'
        | .error _ => false
      if replaces then
        if !(← check c.name (← perform fun fs _ => fs.unlink path)) then return 1
      return statusOf [← check c.name (← perform fun fs now => fs.link now target path s.owner)]
    | operands => c.requiring 2 operands (return 0)

/-! ## Paths and modes -/

def readlink : Builtin where
  name := ascii "readlink"
  summary := ascii "print a symbolic link's target"
  help := [
    ascii "Usage: readlink LINK",
    ascii "Print the target of a symbolic link."]
  answer c := c.withFlags "" fun flags => c.requiring 1 flags.operands do
    forEach flags.operands fun operand => do
      match (← tree).readLink (← resolve operand) with
      | .ok target => do
        out (target ++ [Ascii.newline])
        return true
      | .error _ => return false

def realpath : Builtin where
  name := ascii "realpath"
  summary := ascii "print canonical paths"
  help := [
    ascii "Usage: realpath PATH ...",
    ascii "Print the resolved absolute path."]
  answer c := c.withFlags "" fun flags => c.requiring 1 flags.operands do
    forEach flags.operands fun operand => do
      let found := (← tree).realPath (← resolve operand)
      match found with
      | .ok path => out (path ++ [Ascii.newline])
      | .error _ => pure ()
      check c.name found

/-- Changes the modes of paths; a text that is no mode ends the work. -/
def changeModes (c : Call) (text : Bytes) (good : Bool) : List Bytes → ShellAction Int
  | [] => return statusOf [good]
  | operand :: rest => do
    let path ← resolve operand
    match (← tree).stat path with
    | .error fault => do
      reportFault c.name fault
      changeModes c text false rest
    | .ok node =>
      match Mode.read? text node.mode with
      | none => c.refuse 1 (ascii "invalid mode: '" ++ text ++ ascii "'")
      | some mode => do
        let changed ← check c.name (← perform fun fs now => fs.setMode now path mode)
        changeModes c text (good && changed) rest

def chmod : Builtin where
  name := ascii "chmod"
  summary := ascii "change permission bits"
  help := [
    ascii "Usage: chmod MODE PATH ...",
    ascii "Change file mode bits. MODE is octal (755) or symbolic (u+x)."]
  answer c := do
    match c.arguments with
    | text :: first :: rest => changeModes c text true (first :: rest)
    | _ => c.refuse 1 (ascii "missing operand")

end VirtualShell.Builtin
