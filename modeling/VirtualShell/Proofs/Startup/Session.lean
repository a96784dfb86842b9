import VirtualShell.Proofs.Startup.File

/-!
# The session at the start

The session starts over the loaded tree in the usual home directory, or at the root when that leads
to no directory. The variables of the configuration come over the usual ones after that
(`Program.session_of_setUp`), so a home directory of the configuration moves nobody, and a `PWD` of
the configuration stands. `Program.setUp_starts` says where the session is and when its `HOME` and
its `PWD` say the same.
-/

namespace VirtualShell

open ShellAction

namespace Session

/-- Where a session is to start: in its home directory, or at the root when that leads to no
directory. -/
def startingPoint (tree : Tree) (home : Bytes) : Bytes :=
  if tree.leadsToDirectory home then Path.resolve home else Path.root

/-- The home directory where no configuration names one. -/
def usualHome : Bytes := ascii "/home/user"

/-- The variables where no configuration sets any. -/
def usualVariable (directory name : Bytes) : Option Bytes :=
  if name = ascii "PWD" ∨ name = ascii "OLDPWD" then some directory
  else defaultEnvironment.find? name

theorem directory_default (tree : Tree) :
    (default tree).directory = startingPoint tree usualHome := by
  have canonical : Path.resolve usualHome = usualHome := by decide
  rw [startingPoint, canonical]
  rfl

theorem find?_environment_default (tree : Tree) (name : Bytes) :
    (default tree).environment.find? name = usualVariable (default tree).directory name := by
  have found : (default tree).environment.find? name =
      if ascii "OLDPWD" = name then some (default tree).directory
      else if ascii "PWD" = name then some (default tree).directory
      else defaultEnvironment.find? name := by
    rw [← ByteMap.find?_insert, ← ByteMap.find?_insert]
    rfl
  rw [found, usualVariable]
  by_cases old : ascii "OLDPWD" = name
  · rw [if_pos old, if_pos (.inr old.symm)]
  · by_cases here : ascii "PWD" = name
    · rw [if_neg old, if_pos here, if_pos (.inl here.symm)]
    · rw [if_neg old, if_neg here, if_neg (not_or.2 ⟨Ne.symm here, Ne.symm old⟩)]

end Session

namespace Program

/-- **The session that is set up** is the usual one over the loaded tree, and over it what the
configuration says. -/
theorem session_of_setUp {l : Launch} {p : Plan} {w : World}
    (up : ((setUp l p).run w).value = .ok ()) :
    let after := ((setUp l p).run w).world
    after.session = p.configuration.applyToSession (.default after.system.tree) := by
  rw [setUp, run_bind] at up ⊢
  generalize (loadFileSystem l p.settings).run w = loaded at up ⊢
  cases outcome : loaded.value with
  | error fault =>
    rw [outcome] at up
    cases up
  | ok =>
    rfl

/-- **Where the session is at the start**: in the usual home directory, or at the root when that
leads to no directory, whatever the configuration says; its variables are those of the configuration
over the usual ones. So it is in the home directory of the session just when that of the
configuration, if it names one, leads to the same place; and `PWD` says where it is just when that
of the configuration, if it sets one, does. -/
theorem setUp_starts {l : Launch} {p : Plan} {w : World}
    (up : ((setUp l p).run w).value = .ok ()) :
    let tree := ((setUp l p).run w).world.system.tree
    let s := ((setUp l p).run w).world.session
    let named := p.configuration.environment.find?
    s.directory = Session.startingPoint tree Session.usualHome ∧
    (∀ name, s.environment.find? name =
      (named name).or (Session.usualVariable s.directory name)) ∧
    (s.directory = Session.startingPoint tree s.home ↔ ∀ home, named (ascii "HOME") = some home →
      s.directory = Session.startingPoint tree (if home.isEmpty then Path.root else home)) ∧
    (s.environment.find? (ascii "PWD") = some s.directory ↔
      ∀ value, named (ascii "PWD") = some value → value = s.directory) := by
  intro tree s named
  have session : s = p.configuration.applyToSession (.default tree) := session_of_setUp up
  have directory : s.directory = Session.startingPoint tree Session.usualHome :=
    (congrArg Session.directory session).trans (Session.directory_default tree)
  have values (name : Bytes) : s.environment.find? name =
      (named name).or (Session.usualVariable s.directory name) := by
    rw [session, Configuration.applyToSession, ByteMap.find?_insertMany_entries,
      Session.find?_environment_default]
  refine ⟨directory, values, ?_, ?_⟩
  · have home : s.home = (named (ascii "HOME")).elim Session.usualHome fun home =>
        if home.isEmpty then Path.root else home := by
      rw [Session.home, Session.valueOf, values]
      cases named (ascii "HOME") <;> rfl
    rw [home]
    cases named (ascii "HOME") with
    | none => simpa using directory
    | some home => simp
  · rw [values]
    cases named (ascii "PWD") with
    | none => simp [Session.usualVariable]
    | some value => simp

/-- A plan in memory with the text of a configuration file. -/
def planWith (text : Bytes) : Plan where
  settings := { barePlan.settings with persistent := false }
  configuration := (Configuration.read text).toOption.getD {}
  job := .standardInput

/-- A configuration that spells the usual home directory another way. -/
theorem setUp_starts_of_respelled :
    let p := planWith (ascii "\x7b\"env\": \x7b\"HOME\": \"/home/../home/user\"\x7d\x7d")
    let up := (setUp bareLaunch p).run (emptyWorld ⟨∅⟩ 0)
    let s := up.world.session
    up.value = .ok () ∧
      s.directory = Session.startingPoint up.world.system.tree s.home ∧
      s.environment.find? (ascii "PWD") = some s.directory := by
  intro p up s
  have isUp : up.value = .ok () := by decide +kernel
  have home : p.configuration.environment.find? (ascii "HOME") =
      some (ascii "/home/../home/user") := by decide +kernel
  have working : p.configuration.environment.find? (ascii "PWD") = none := by decide +kernel
  have there : s.directory = Session.startingPoint up.world.system.tree
      (ascii "/home/../home/user") := by decide +kernel
  obtain ⟨-, -, atHome, atWorking⟩ := setUp_starts isUp
  refine ⟨isUp, atHome.2 fun named found => ?_, atWorking.2 fun value found => ?_⟩
  · cases home.symm.trans found
    exact there
  · cases working.symm.trans found

/-- **A home directory of the configuration moves nobody**: it is there and the session is not in
it. A `PWD` of the configuration stands. -/
theorem not_setUp_starts :
    let text := ascii
      "\x7b\"env\": \x7b\"HOME\": \"/tmp\", \"PWD\": \"/home\"\x7d\x7d"
    let up := (setUp bareLaunch (planWith text)).run (emptyWorld ⟨∅⟩ 0)
    let s := up.world.session
    (Configuration.read text).isOk = true ∧ up.value = .ok () ∧
      up.world.system.tree.leadsToDirectory s.home = true ∧
      s.directory ≠ Path.resolve s.home ∧
      s.environment.find? (ascii "PWD") ≠ some s.directory := by
  decide +kernel

end Program

end VirtualShell
