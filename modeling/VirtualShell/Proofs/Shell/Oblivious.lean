import VirtualShell.Shell.Builtin

/-!
# Actions that do not look at the lines around them

Besides the session and the files there are two things in the world that only the running of lines
is about: the request to exit and the count of the lines being run (`Control`). An action is
*oblivious* when it neither reads nor changes either of them: from a world with another control it
does the same, and leaves the other control behind (`Oblivious`).

What is put together from oblivious actions is oblivious. A text, a trace, an operation of the file
system are; a part that reads the session or the world is, when what it goes on with does not depend
on the control (`Oblivious.bind_session`, `Oblivious.bind_world`).
-/

namespace VirtualShell

/-! ## Control -/

namespace Session

/-- The session with another request to exit. -/
def exiting (s : Session) (exit : Option Int) : Session := { s with exit }

variable (s : Session) (e : Option Int)

@[simp] theorem directory_exiting : (s.exiting e).directory = s.directory := rfl
@[simp] theorem environment_exiting : (s.exiting e).environment = s.environment := rfl
@[simp] theorem aliases_exiting : (s.exiting e).aliases = s.aliases := rfl
@[simp] theorem lastStatus_exiting : (s.exiting e).lastStatus = s.lastStatus := rfl
@[simp] theorem owner_exiting : (s.exiting e).owner = s.owner := rfl
@[simp] theorem exit_exiting : (s.exiting e).exit = e := rfl

@[simp] theorem valueOf_exiting (name : Bytes) : (s.exiting e).valueOf name = s.valueOf name := rfl

@[simp] theorem home_exiting : (s.exiting e).home = s.home := rfl

@[simp] theorem resolve_exiting (path : Bytes) : (s.exiting e).resolve path = s.resolve path := rfl

end Session

/-- The request to exit and the count of the lines being run. -/
structure Control where
  exit : Option Int
  depth : Nat

namespace World

def control (w : World) : Control := ⟨w.session.exit, w.depth⟩

/-- The world with another control. -/
def under (w : World) (c : Control) : World :=
  { w with session := w.session.exiting c.exit, depth := c.depth }

variable (w : World) (c c' : Control)

@[simp] theorem under_control : w.under w.control = w := rfl
@[simp] theorem control_under : (w.under c).control = c := rfl
@[simp] theorem under_under : (w.under c).under c' = w.under c' := rfl
@[simp] theorem session_under : (w.under c).session = w.session.exiting c.exit := rfl
@[simp] theorem system_under : (w.under c).system = w.system := rfl
@[simp] theorem now_under : (w.under c).now = w.now := rfl
@[simp] theorem depth_under : (w.under c).depth = c.depth := rfl

end World

/-- The result with another control behind it. -/
def ActionResult.under {α : Type} (r : ActionResult α) (c : Control) : ActionResult α :=
  { r with world := r.world.under c }

namespace ShellAction

variable {α β : Type}

/-- The action neither reads nor changes the control. -/
def Oblivious (a : ShellAction α) : Prop := ∀ w c, a.run (w.under c) = (a.run w).under c

namespace Oblivious

variable {a : ShellAction α} {f : α → ShellAction β}

/-- What an oblivious action leaves of the control is all of it. -/
theorem control_run (h : Oblivious a) (w : World) : (a.run w).world.control = w.control :=
  congrArg (fun r => r.world.control) (h w w.control)

/-! ## Putting actions together -/

theorem pure (v : α) : Oblivious (Pure.pure v : ShellAction α) := fun _ _ => rfl

theorem bind (h : Oblivious a) (hf : ∀ v, Oblivious (f v)) : Oblivious (a >>= f) := by
  intro w c
  have first := h w c
  have second := hf (a.run w).value (a.run w).world c
  rw [run_bind, first]
  exact congrArg (fun r => (⟨r.value, (a.run w).emitted ++ r.emitted, r.world⟩ : ActionResult β))
    second

/-! ## What there is to do -/

theorem emit (e : List Emission) : Oblivious (emit e) := fun _ _ => rfl

theorem tree : Oblivious tree := fun _ _ => rfl

theorem perform (operation : FileSystem → Int → FileSystemStep α) :
    Oblivious (perform operation) := fun _ _ => rfl

/-- Reading the session, to go on with what a request to exit makes no difference to. -/
theorem bind_session {f : Session → ShellAction β} (same : ∀ s e, f (s.exiting e) = f s)
    (h : ∀ s, Oblivious (f s)) : Oblivious (session >>= f) := by
  intro w c
  change (f (w.session.exiting c.exit)).run (w.under c) = ((f w.session).run w).under c
  rw [same, h]

theorem bind_world {f : World → ShellAction β} (same : ∀ w c, f (w.under c) = f w)
    (h : ∀ w, Oblivious (f w)) : Oblivious (world >>= f) := by
  intro w c
  change (f (w.under c)).run (w.under c) = ((f w).run w).under c
  rw [same, h]

theorem modifySession {f : Session → Session}
    (same : ∀ s e, f (s.exiting e) = (f s).exiting e) : Oblivious (modifySession f) := by
  intro w c
  change (⟨(), [], { w with session := f (w.session.exiting c.exit), depth := c.depth }⟩ :
    ActionResult Unit) = _
  rw [same]
  rfl

end Oblivious

end ShellAction

end VirtualShell
