import VirtualShell.Proofs.Reachable
import VirtualShell.Shell.Builtin

/-!
# Actions that change the file system by requests

Whatever an action does to the files, it asks the file system for it: the file system behind it is
the one before it after a run of requests (`Requests`). So what every request keeps, an action
keeps, and behind a file system that can be reached there is one that can be reached
(`Requests.reachable`).

What is put together from such actions is such an action; at the bottom there are the edits and the
reading of a file, and everything that leaves the file system alone.
-/

namespace VirtualShell

/-- Whatever is asked for. -/
abbrev Run.Asked (start : FileSystem) : FileSystem → Prop := Run (fun _ _ => True) start

theorem Run.trans {allowed : FileSystem → Request → Prop} {start middle finish : FileSystem}
    (h : Run allowed start middle) (h' : Run allowed middle finish) : Run allowed start finish := by
  induction h' with
  | start => exact h
  | request _ ok ih => exact .request ih ok

/-- An operation over the store as it is, is a request. -/
theorem Run.asked_operation (fs : FileSystem) (now : Int) (operation : Operation) :
    Run.Asked fs (operation.run fs now).system := by
  have asked : Run.Asked fs (Request.run fs ⟨operation, now, fs.volume.obstacle⟩).system :=
    .request .start trivial
  exact asked

theorem Run.reachable {start fs : FileSystem} (run : Run.Asked start fs) (h : Reachable start) :
    Reachable fs :=
  run.invariant Reachable h fun _ request h _ => .request request h

namespace ShellAction

variable {α β : Type}

/-- The action changes the file system by requests only. -/
def Requests (a : ShellAction α) : Prop := ∀ w, Run.Asked w.system (a.run w).world.system

namespace Requests

variable {a : ShellAction α} {f : α → ShellAction β}

theorem reachable (h : Requests a) {w : World} (reached : Reachable w.system) :
    Reachable (a.run w).world.system := (h w).reachable reached

theorem of_keeps (h : ∀ w, (a.run w).world.system = w.system) : Requests a := fun w => by
  rw [h]
  exact .start

/-! ## Putting actions together -/

theorem pure (v : α) : Requests (Pure.pure v : ShellAction α) := .of_keeps fun _ => rfl

theorem bind (h : Requests a) (hf : ∀ v, Requests (f v)) : Requests (a >>= f) :=
  fun w => (h w).trans (hf (a.run w).value (a.run w).world)

theorem bind_session {f : Session → ShellAction β} (h : ∀ s, Requests (f s)) :
    Requests (session >>= f) := fun w => h w.session w

theorem bind_world {f : World → ShellAction β} (h : ∀ w, Requests (f w)) :
    Requests (world >>= f) := fun w => h w w

theorem ite {p : Prop} [Decidable p] {b : ShellAction α} (h : Requests a) (h' : Requests b) :
    Requests (if p then a else b) := by
  split
  · exact h
  · exact h'

theorem divert {a : ShellAction Int} (h : Requests a) (output errors : Bool) :
    Requests (a.divert output errors) := h

theorem keepingExit (h : Requests a) : Requests (keepingExit a) := h

theorem nested (h : Requests a) : Requests (nested a) :=
  fun w => h { w with depth := w.depth + 1 }

/-! ## What there is to do -/

theorem emit (e : List Emission) : Requests (emit e) := .of_keeps fun _ => rfl

theorem modifySession (f : Session → Session) : Requests (modifySession f) := .of_keeps fun _ => rfl

theorem edit (edit : Edit) : Requests (perform fun fs now => edit.run fs now) :=
  fun w => Run.asked_operation w.system w.now (.edit edit)

theorem read (path : Bytes) : Requests (perform fun fs now => fs.read now path) :=
  fun w => Run.asked_operation w.system w.now (.read path)

end Requests

end ShellAction

end VirtualShell
