import VirtualShell.Tree.Lookup

/-!
# The session

What the shell knows about its user between two lines: the working directory, the environment, the
aliases, the status of the last line, the owner of new files and whether the shell has been asked to
exit. The working directory is kept as it was named, links and all.

* `Session.default` starts in the home directory when that leads to a directory, else at the root.
* `Session.changeDirectory` moves to a directory and keeps `PWD` and `OLDPWD` in step.
-/

namespace VirtualShell

/-- The state of the user's session. -/
structure Session where
  directory : Bytes := Path.root
  environment : ByteMap Bytes := ∅
  aliases : ByteMap Bytes := ∅
  /-- The status of the last statement. -/
  lastStatus : Int := 0
  owner : Owner := {}
  /-- The status to exit with, once the shell has been asked to. -/
  exit : Option Int := none

namespace Session

/-- The value of a variable, empty when it is not set. -/
def valueOf (s : Session) (name : Bytes) : Bytes := (s.environment.find? name).getD []

def setVariable (s : Session) (name value : Bytes) : Session :=
  { s with environment := s.environment.insert name value }

def unsetVariable (s : Session) (name : Bytes) : Session :=
  { s with environment := s.environment.erase name }

/-- The home directory, the root when there is none. -/
def home (s : Session) : Bytes :=
  let home := s.valueOf (ascii "HOME")
  if home.isEmpty then Path.root else home

/-- The canonical path that a text names in the session. -/
def resolve (s : Session) (path : Bytes) : Bytes := Path.resolve path s.directory s.home

/-- The environment that a session starts with. -/
def defaultEnvironment : ByteMap Bytes :=
  ByteMap.ofList [
    (ascii "HOME", ascii "/home/user"),
    (ascii "USER", ascii "user"),
    (ascii "PATH", ascii "/usr/bin:/bin"),
    (ascii "SHELL", ascii "/bin/vsh"),
    (ascii "TERM", ascii "xterm-256color"),
    (ascii "LANG", ascii "en_US.UTF-8")]

/-- The session that starts over a tree. -/
def default (tree : Tree) : Session :=
  let s : Session := { environment := defaultEnvironment }
  let directory := if tree.leadsToDirectory s.home then s.home else s.directory
  ({ s with directory }.setVariable (ascii "PWD") directory).setVariable (ascii "OLDPWD") directory

/-- Moves to a directory. -/
def changeDirectory (s : Session) (tree : Tree) (path : Bytes) : Outcome Session := do
  let target := s.resolve path
  let node ← tree.stat target
  if !node.isDirectory then throw (.plain .notADirectory target)
  let left := s.setVariable (ascii "OLDPWD") s.directory
  return { left with directory := target }.setVariable (ascii "PWD") target

/-! ## The prompt -/

/-- The working directory as the prompt shows it, the home directory being `~`. -/
def shownDirectory (s : Session) : Bytes :=
  let home := s.home
  if home = Path.root then s.directory
  else if s.directory = home then [Ascii.tilde]
  else if (home ++ [Ascii.slash]).isPrefixOf s.directory then
    Ascii.tilde :: s.directory.drop home.length
  else s.directory

def prompt (s : Session) : Bytes :=
  let user := s.valueOf (ascii "USER")
  let user := if user.isEmpty then ascii "user" else user
  user ++ ascii "@vsh:" ++ s.shownDirectory ++ ascii "$ "

end Session

end VirtualShell
