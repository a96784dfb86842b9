import VirtualShell.FileSystem
import VirtualShell.Proofs.Host.Replace

/-!
# What a commit may rely on

A `Keeper` is a store of any kind: it keeps records, in a file or not, and takes a batch as a whole
or leaves what it keeps alone. Volumes are keepers (`Volume.keeper`), over memory and over a
document of the host, and the file system commits to its volume as one does to any keeper
(`FileSystem.change_eq`). So what holds of changes over every keeper (`Keeper.change_allOrNothing`)
holds of the file system.

The host may fail at any call while it replaces the document. The document is out of its reach then,
unless there is a NUL in the path (`Volume.Guarded`): so much is asked for the bytes of the file,
and nothing for the records.
-/

namespace VirtualShell

/-- A store of any kind, with what is promised of its commits. -/
structure Keeper (σ : Type) where
  records : σ → Records
  /-- The bytes of the file that the records are kept in, if there is one. -/
  file : σ → Option Bytes
  commit : σ → Batch → Outcome Unit × σ
  /-- No commit that fails reaches the file. -/
  Guarded : σ → Prop
  refused : ∀ {state batch fault}, (commit state batch).1 = .error fault →
    records (commit state batch).2 = records state ∧
      (Guarded state → file (commit state batch).2 = file state)
  taken : ∀ {state batch}, (commit state batch).1 = .ok () →
    records (commit state batch).2 = batch.apply (records state)

namespace Keeper

variable {σ : Type} (keeper : Keeper σ)

/-- Commits a batch, and makes it in the tree once it is taken. -/
def commitTo (tree : Tree) (state : σ) (batch : Batch) : Outcome Unit × Tree × σ :=
  if batch.isEmpty then (.ok (), tree, state)
  else match keeper.commit state batch with
    | (.ok (), state) => (.ok (), batch.apply tree, state)
    | (.error fault, state) => (.error fault, tree, state)

/-- Commits a plan. -/
def change (tree : Tree) (state : σ) : Outcome Change → Outcome Unit × Tree × σ
  | .ok change => keeper.commitTo tree state change.batch
  | .error fault => (.error fault, tree, state)

end Keeper

/-! ## Volumes -/

namespace Volume

variable {v : Volume} {batch : Batch}

/-- The bytes of the document that the records are kept in, under the path that a reader of the
document comes to (`Disk.read_eq_ok_iff`). -/
def file (v : Volume) : Option Bytes :=
  match v.store with
  | .memory _ => none
  | .document path _ => v.disk.fileAt (Disk.keyOf path)

/-- The host fails at nothing, or the temporary file is another one than the document. -/
def Guarded (v : Volume) : Prop :=
  v.trouble = none ∨ ∀ path records, v.store = .document path records → 0 ∉ path

theorem Guarded.apart (h : v.Guarded) {path : Bytes} {records : Records}
    (store : v.store = .document path records) : 0 ∉ path ∨ v.trouble = none :=
  h.symm.imp (fun named => named path records store) id

theorem fileAt_prepareDirectory (disk : Disk) (path key : Bytes) :
    (prepareDirectory disk path).1.fileAt key = disk.fileAt key := by
  unfold prepareDirectory
  dsimp only
  split
  · rfl
  · exact disk.fileAt_makeDirectories ..

/-- **A commit to a document that fails** leaves the bytes of the document. -/
theorem fileAt_commitDocument_of_error {path : Bytes} {records : Records} {fault : Fault}
    (apart : 0 ∉ path ∨ v.trouble = none)
    (h : (v.commitDocument path records batch).result = .error fault) :
    (v.commitDocument path records batch).volume.disk.fileAt (Disk.keyOf path) =
      v.disk.fileAt (Disk.keyOf path) := by
  have prepared := fileAt_prepareDirectory v.disk path (Disk.keyOf path)
  unfold commitDocument at h ⊢
  split at h
  next disk _ made =>
    rw [made] at prepared
    exact prepared
  next disk made =>
    rw [made] at prepared
    dsimp only at h ⊢
    split at h
    · exact prepared
    next text written =>
      split at h
      next disk' e replaced =>
        have kept := Disk.fileAt_of_replace_error apart (congrArg Prod.snd replaced)
        rw [replaced] at kept
        exact kept.trans prepared
      · cases h

/-- A commit to a document that fails leaves the directories. -/
theorem stands_commitDocument_of_error {path : Bytes} {records : Records} {fault : Fault}
    (h : (v.commitDocument path records batch).result = .error fault) :
    v.disk.Stands (v.commitDocument path records batch).volume.disk := by
  have prepared : v.disk.Stands (prepareDirectory v.disk path).1 := by
    unfold prepareDirectory
    dsimp only
    split
    · exact fun _ dir => dir
    · exact v.disk.stands_makeDirectories _
  unfold commitDocument at h ⊢
  split at h
  next disk _ made =>
    rw [made] at prepared
    exact prepared
  next disk made =>
    rw [made] at prepared
    dsimp only at h ⊢
    split at h
    · exact prepared
    next text written =>
      split at h
      next disk' e replaced =>
        have stands := Disk.stands_of_replace_error (congrArg Prod.snd replaced)
        rw [replaced] at stands
        exact prepared.trans stands
      · cases h

theorem records_commitDocument_of_ok {path : Bytes} {records : Records}
    (h : (v.commitDocument path records batch).result = .ok ()) :
    (v.commitDocument path records batch).volume.store = .document path (batch.apply records) := by
  unfold commitDocument at h ⊢
  split at h
  · cases h
  · dsimp only at h ⊢
    split at h
    · cases h
    · split at h
      · cases h
      · rfl

theorem file_commit_of_error {fault : Fault} (guarded : v.Guarded)
    (h : (v.commit batch).result = .error fault) : (v.commit batch).volume.file = v.file := by
  have store := store_commit_of_error h
  unfold file
  rw [store]
  split
  · rfl
  next path records kept =>
    unfold commit at h ⊢
    split at h
    · rfl
    · rw [kept] at h ⊢
      dsimp only at h ⊢
      split at h
      · cases h
      next some =>
        rw [if_neg some]
        exact fileAt_commitDocument_of_error (guarded.apart kept) h

/-- **A commit that succeeds** has made the batch in the records. -/
theorem records_commit_of_ok (h : (v.commit batch).result = .ok ()) :
    (v.commit batch).volume.store.records = batch.apply v.store.records := by
  unfold commit at h ⊢
  split at h
  · cases h
  · cases kept : v.store with
    | memory records => rfl
    | document path records =>
      rw [kept] at h
      dsimp only at h ⊢
      split at h
      next empty => rw [if_pos empty, kept, Batch.apply_of_isEmpty empty]
      next some =>
        rw [if_neg some, records_commitDocument_of_ok h]
        rfl

/-- A volume keeps records, in memory or in a document. -/
def keeper : Keeper Volume where
  records v := v.store.records
  file := file
  commit v batch := ((v.commit batch).result, (v.commit batch).volume)
  Guarded := Guarded
  refused h := ⟨congrArg Store.records (store_commit_of_error h),
    fun guarded => file_commit_of_error guarded h⟩
  taken h := records_commit_of_ok h

end Volume

end VirtualShell
