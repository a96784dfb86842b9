import VirtualShell.Proofs.Shell.Oblivious
import VirtualShell.Proofs.Shell.Requests

/-!
# Confined actions

An action is *confined* when it looks neither at a request to exit nor at the count of the lines
being run, and changes the file system by requests only (`Confined`). What is put together from
confined actions is confined, so both are shown of a command by going through it once.
-/

namespace VirtualShell

namespace ShellAction

variable {α β : Type}

/-- The action is oblivious of the control, and changes the file system by requests only. -/
structure Confined (a : ShellAction α) : Prop where
  oblivious : Oblivious a
  requests : Requests a

namespace Confined

variable {a : ShellAction α} {f : α → ShellAction β}

/-! ## Putting actions together -/

theorem pure (v : α) : Confined (Pure.pure v : ShellAction α) := ⟨.pure v, .pure v⟩

theorem bind (h : Confined a) (hf : ∀ v, Confined (f v)) : Confined (a >>= f) :=
  ⟨h.oblivious.bind fun v => (hf v).oblivious, h.requests.bind fun v => (hf v).requests⟩

theorem ite {p : Prop} [Decidable p] {b : ShellAction α} (h : Confined a) (h' : Confined b) :
    Confined (if p then a else b) := by
  split
  · exact h
  · exact h'

theorem mapM {γ : Type} {g : γ → ShellAction β} {items : List γ}
    (h : ∀ item, Confined (g item)) : Confined (items.mapM g) := by
  induction items with
  | nil => exact .pure []
  | cons item rest ih =>
    rw [List.mapM_cons]
    exact (h item).bind fun _ => ih.bind fun _ => .pure _

theorem forM {γ : Type} {g : γ → ShellAction PUnit} {items : List γ}
    (h : ∀ item, Confined (g item)) : Confined (items.forM g) := by
  induction items with
  | nil => exact .pure _
  | cons item rest ih => exact (h item).bind fun _ => ih

/-- Reading the session, to go on with what a request to exit makes no difference to. -/
theorem bind_session {f : Session → ShellAction β} (same : ∀ s e, f (s.exiting e) = f s)
    (h : ∀ s, Confined (f s)) : Confined (session >>= f) :=
  ⟨.bind_session same fun s => (h s).oblivious, .bind_session fun s => (h s).requests⟩

theorem bind_world {f : World → ShellAction β} (same : ∀ w c, f (w.under c) = f w)
    (h : ∀ w, Confined (f w)) : Confined (world >>= f) :=
  ⟨.bind_world same fun w => (h w).oblivious, .bind_world fun w => (h w).requests⟩

/-! ## What there is to do -/

theorem emit (e : List Emission) : Confined (emit e) := ⟨.emit e, .emit e⟩

theorem out (text : Bytes) : Confined (out text) := .emit _

theorem err (text : Bytes) : Confined (err text) := .emit _

theorem trace (events : List TraceEvent) : Confined (trace events) := .emit _

theorem report (r : Report) : Confined (report r) := .err _

theorem reportFault (command : Bytes) (fault : Fault) : Confined (reportFault command fault) :=
  .report _

theorem tree : Confined tree := ⟨.tree, .of_keeps fun _ => rfl⟩

theorem modifySession {f : Session → Session}
    (same : ∀ s e, f (s.exiting e) = (f s).exiting e) : Confined (modifySession f) :=
  ⟨.modifySession same, .modifySession f⟩

theorem edit (edit : Edit) : Confined (perform fun fs now => edit.run fs now) :=
  ⟨.perform _, .edit edit⟩

theorem resolve (path : Bytes) : Confined (resolve path) :=
  .bind_session (fun _ _ => rfl) fun _ => .pure _

theorem readPath (path : Bytes) : Confined (readPath path) :=
  (resolve path).bind fun path => ⟨.perform _, .read path⟩

theorem writePath (path content : Bytes) (append : Bool) :
    Confined (writePath path content append) :=
  .bind_session (fun _ _ => rfl) fun s => .edit (.write (s.resolve path) content append s.owner)

theorem check (command : Bytes) (outcome : Outcome α) : Confined (check command outcome) := by
  cases outcome with
  | ok _ => exact .pure true
  | error fault => exact (reportFault command fault).bind fun _ => .pure false

theorem release (c : Captured) : Confined (release c) := by
  refine .ite ((Confined.out _).bind fun _ => ?_) ?_
  all_goals exact .ite ((Confined.err _).bind fun _ => .pure _) (.pure _)

theorem forEach {γ : Type} {items : List γ} {g : γ → ShellAction Bool}
    (h : ∀ item, Confined (g item)) : Confined (forEach items g) :=
  (mapM h).bind fun _ => .pure _

end Confined

end ShellAction

/-! ## Calls -/

namespace Call

open ShellAction

variable (c : Call)

theorem confined_complain (kind : ReportKind) (message : Bytes) (advice : List Bytes) :
    Confined (c.complain kind message advice) := .report _

theorem confined_refuse (status : Int) (message : Bytes) (advice : List Bytes) :
    Confined (c.refuse status message advice) :=
  (c.confined_complain _ _ _).bind fun _ => .pure _

theorem confined_readInput (file : Bytes) : Confined (c.readInput file) := by
  unfold readInput
  refine .ite (.pure _) ((Confined.readPath file).bind fun outcome => ?_)
  cases outcome with
  | ok content => exact .pure _
  | error fault => exact (Confined.reportFault _ _).bind fun _ => .pure _

theorem confined_readInputs (files : List Bytes) : Confined (c.readInputs files) := by
  unfold readInputs
  exact .ite (.pure _) ((Confined.mapM c.confined_readInput).bind fun _ => .pure _)

theorem confined_withFlags {allowed : String} {k : Flags → ShellAction Int}
    (h : ∀ flags, Confined (k flags)) : Confined (c.withFlags allowed k) := by
  unfold withFlags
  split
  · exact h _
  · exact c.confined_refuse _ _ _

theorem confined_requiring {count : Nat} {operands : List Bytes} {k : ShellAction Int}
    (h : Confined k) : Confined (c.requiring count operands k) := by
  unfold requiring
  exact .ite h (c.confined_refuse _ _ _)

theorem confined_forOperands {f : Bytes → ShellAction (Outcome Unit)} {operands : List Bytes}
    (h : ∀ operand, Confined (f operand)) : Confined (c.forOperands f operands) :=
  .forEach fun operand => (h operand).bind fun _ => .check _ _

end Call

end VirtualShell
