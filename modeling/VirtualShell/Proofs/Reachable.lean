import VirtualShell.Proofs.Load
import VirtualShell.Proofs.Operation

/-!
# Reachable file systems

Whatever a file system over whatever store has been through, loads and requests of every kind, its
records stand under their own canonical paths (`Reachable.keyed`). While no directory is copied
over another, every tree that requests lead to from a loaded one is sound (`sound_of_run`).
-/

namespace VirtualShell

/-- Loads and requests, with whatever outcome, lead from an empty tree to the file system. -/
inductive Reachable : FileSystem → Prop
  | fresh (volume : Volume) : Reachable { volume }
  | load {fs : FileSystem} (now : Int) : Reachable fs → Reachable (fs.load now).system
  | request {fs : FileSystem} (request : Request) : Reachable fs →
      Reachable (request.run fs).system

/-- **Every record that is reached** stands under its own canonical path. -/
theorem Reachable.keyed {fs : FileSystem} (h : Reachable fs) : fs.tree.Keyed := by
  induction h with
  | fresh => exact nofun
  | load _ _ ih => exact FileSystem.load_keyed ih
  | request _ _ ih => exact Request.keyed_run ih

variable {origin fs : FileSystem} {now : Int}

/-- **Every tree that is reached is sound.** The run may start from any store that can be loaded
and in which nothing but directories claims the root, be it a document or memory with records of
the size of their content; it is made of any requests at any times, of which the store and the host
may refuse any, but for copies of a directory to where one stands already. -/
theorem sound_of_run (opens : (origin.load now).result = .ok ()) (sized : origin.volume.Sized)
    (roots : ∀ inodes, origin.volume.load.result = .ok inodes → ∀ node ∈ inodes,
      Path.resolve node.path = Path.root → node.isDirectory = true)
    (run : Run (fun fs request => ¬ request.Merges fs) (origin.load now).system fs) :
    fs.tree.Sound :=
  run.invariant (fun fs => fs.tree.Sound) (FileSystem.load_sound opens sized roots)
    fun _ _ h apart => Request.sound_run h apart

/-- A fresh store, a file that is written through a link and a directory that is moved. -/
theorem sound_of_run_fresh :
    let origin : FileSystem := { volume := { store := .memory ∅ } }
    let first := (origin.load 0).system
    let second := (Request.run first ⟨.edit (.link (ascii "log") (ascii "/tmp/l")), 1, none⟩).system
    let third := (Request.run second ⟨.edit (.write (ascii "/tmp/l") (ascii "hi")), 2, none⟩).system
    let fourth :=
      (Request.run third ⟨.edit (.rename (ascii "/tmp") (ascii "/etc/t")), 3, none⟩).system
    fourth.tree.contains (ascii "/etc/t/log") = true ∧ fourth.tree.Sound := by
  refine ⟨by decide, ?_⟩
  refine @sound_of_run { volume := { store := .memory ∅ } } _ 0 rfl
    (Volume.sized_of_empty rfl) ?_ ?_
  · rintro inodes ⟨⟩ node mem
    cases mem
  · exact .request (.request (.request .start id) id) id

end VirtualShell
