import VirtualShell.Proofs.Load
import VirtualShell.Proofs.Operation
import VirtualShell.Proofs.Store.Document

/-!
# A document in the place of memory

A file system whose store is a document behaves as the one over memory: the same requests give the
same results and leave the same trees, and the document on the disk always loads as the tree, but
for the times of access, which reading moves in the tree alone (`document_refines_memory`).

The relation that every request keeps (`Mirrors`) ties three copies of the records together: the
tree that both file systems have, the records that both stores keep, which are those of the tree up
to the times of access, and the document, whose text is that of the records.
-/

namespace VirtualShell

/-! ## Times of access -/

/-- The record without its time of access. -/
def Inode.forgetAccess (node : Inode) : Inode := { node with accessed := 0 }

/-- The batch does the same to records that differ in their times of access. -/
theorem Batch.map_forgetAccess_apply (b : Batch) {records others : Records}
    (h : records.map Inode.forgetAccess = others.map Inode.forgetAccess) :
    (b.apply records).map Inode.forgetAccess = (b.apply others).map Inode.forgetAccess := by
  have paths : ∀ node : Inode, node.forgetAccess.path = node.path := fun _ => rfl
  rw [b.map_apply paths, b.map_apply paths, h]

/-- A moved time of access is forgotten. -/
theorem map_forgetAccess_put {tree : Tree} {node : Inode} (t : Int)
    (found : tree.find? node.path = some node) :
    ((Batch.put { node with accessed := t }).apply tree).map Inode.forgetAccess =
      tree.map Inode.forgetAccess := by
  have same : (tree.map Inode.forgetAccess).find? node.path = some node.forgetAccess := by
    rw [ByteMap.find?_map, found]
    rfl
  have put : ((Batch.put { node with accessed := t }).apply tree).map Inode.forgetAccess =
      (tree.map Inode.forgetAccess).insert node.path node.forgetAccess :=
    ByteMap.map_insert Inode.forgetAccess tree node.path { node with accessed := t }
  rw [put, ByteMap.insert_of_find? same]

/-! ## The relation -/

namespace FileSystem

/-- A fresh store of the same place loads the records of the tree, up to times of access. -/
def Reloads (fs : FileSystem) : Prop :=
  ∃ inodes, (Volume.load { fs.volume with store := fs.volume.store.fresh }).result = .ok inodes ∧
    inodes.map Inode.forgetAccess = fs.tree.values.map Inode.forgetAccess

/-- Over memory and over a document the same tree, and the same records, which are those of the
tree up to times of access. -/
structure Aligned (path : Bytes) (memory document : FileSystem) : Prop where
  tree : document.tree = memory.tree
  memory_store : memory.volume.store = .memory memory.volume.store.records
  document_store : document.volume.store = .document path memory.volume.store.records
  keyed : memory.tree.Keyed
  storable : memory.tree.Storable
  records_storable : Tree.Storable memory.volume.store.records
  drift : memory.volume.store.records.map Inode.forgetAccess =
    memory.tree.map Inode.forgetAccess

/-- Aligned, with the document of the records on the disk. -/
structure Mirrors (path : Bytes) (memory document : FileSystem) : Prop
    extends Aligned path memory document where
  stored : IsStored document.volume.disk path memory.volume.store.records

variable {path : Bytes} {memory document : FileSystem}

/-- **What is mirrored** can be loaded again. -/
theorem Mirrors.reloads (h : Mirrors path memory document) : document.Reloads := by
  have storable : ∀ node ∈ memory.volume.store.records.values, node.Storable := by
    intro node mem
    obtain ⟨key, found⟩ := ByteMap.mem_values_iff.1 mem
    exact h.records_storable key node found
  refine ⟨_, Volume.load_of_isStored h.stored storable (by rw [h.document_store]; rfl), ?_⟩
  rw [← ByteMap.values_map, ← ByteMap.values_map, h.drift, h.tree]

/-! ## Commits -/

section
variable {records : Records} {batch : Batch}

theorem commit_of_some (fs : FileSystem) (some : batch.isEmpty = false) :
    (fs.commit batch).result = (fs.volume.commit batch).result ∧
      (fs.commit batch).system.volume = (fs.volume.commit batch).volume := by
  unfold FileSystem.commit
  rw [some, if_neg nofun]
  dsimp only
  split
  next taken => exact ⟨taken.symm, rfl⟩
  next refused => exact ⟨refused.symm, rfl⟩

theorem commit_of_refusal {fs : FileSystem} {reason : Bytes} (some : batch.isEmpty = false)
    (refused : fs.volume.refusal = .some reason) :
    (fs.commit batch).result = .error (.store (.refused reason)) ∧
      (fs.commit batch).system = fs := by
  unfold FileSystem.commit Volume.commit
  rw [some, if_neg nofun, refused]
  exact ⟨rfl, rfl⟩

/-- What records that are those of a tree up to times of access have for paths. -/
theorem isValidUtf8_of_drift {tree : Tree}
    (drift : records.map Inode.forgetAccess = tree.map Inode.forgetAccess) (keyed : tree.Keyed)
    (encodable : ∀ key ∈ tree.keys, isValidUtf8 key = true) :
    ∀ node ∈ records.values, isValidUtf8 node.path = true := by
  intro node mem
  have forgotten : node.forgetAccess ∈ tree.values.map Inode.forgetAccess := by
    rw [← ByteMap.values_map, ← drift, ByteMap.values_map]
    exact List.mem_map_of_mem mem
  obtain ⟨twin, mem, e⟩ := List.mem_map.1 forgotten
  obtain ⟨key, found⟩ := ByteMap.mem_values_iff.1 mem
  have path : twin.forgetAccess.path = node.forgetAccess.path := congrArg Inode.path e
  change twin.path = node.path at path
  rw [← path, (keyed key twin found).2]
  exact encodable key (ByteMap.mem_keys_iff.2 (ByteMap.contains_eq_true_iff.2 ⟨twin, found⟩))

end

/-- **A batch that both stores are asked to take** leaves them mirrored. -/
theorem Aligned.commit_free (h : Aligned path memory document) {batch : Batch}
    (some : batch.isEmpty = false) (free : memory.volume.refusal = none)
    (same : document.volume.refusal = none)
    (canonical : ∀ node ∈ batch.puts, Path.Canonical node.path)
    (storable : ∀ node ∈ batch.puts, node.Storable)
    (encodable : ∀ key ∈ (batch.apply memory.tree).keys, isValidUtf8 key = true)
    (host : ∀ fault, (document.commit batch).result = .error fault → fault.isHost = false) :
    (document.commit batch).result = .ok () ∧ (memory.commit batch).result = .ok () ∧
      Mirrors path (memory.commit batch).system (document.commit batch).system := by
  have drift := batch.map_forgetAccess_apply h.drift
  have keyed := Tree.keyed_apply h.keyed canonical
  obtain ⟨memory_result, memory_volume⟩ := memory.commit_of_some some
  obtain ⟨document_result, document_volume⟩ := document.commit_of_some some
  obtain ⟨taken, records⟩ := Volume.commit_of_memory h.memory_store free
  rw [Volume.commit_of_document h.document_store same some] at document_result document_volume
  have encodable := isValidUtf8_of_drift drift keyed encodable
  rcases Volume.commitDocument_cases encodable with
    ⟨fault, fails, isHost⟩ | ⟨ok, store, stored⟩
  · rw [host fault (document_result.trans fails)] at isHost
    cases isHost
  · have result := document_result.trans ok
    have memory_tree := tree_commit_of_ok (memory_result.trans taken)
    have document_tree := tree_commit_of_ok result
    have memory_records : (memory.commit batch).system.volume.store.records =
        batch.apply memory.volume.store.records := by
      rw [memory_volume, records]
      rfl
    exact ⟨result, memory_result.trans taken, {
      tree := by rw [document_tree, memory_tree, h.tree]
      memory_store := by rw [memory_records, memory_volume, records]
      document_store := by rw [memory_records, document_volume, store]
      keyed := memory_tree ▸ keyed
      storable := memory_tree ▸ h.storable.apply storable
      records_storable := memory_records ▸ h.records_storable.apply storable
      drift := by rw [memory_records, memory_tree, drift]
      stored := by rwa [memory_records, document_volume] }⟩

/-- **Every commit** gives the same over memory and over a document, and leaves them mirrored. -/
theorem Mirrors.commit (h : Mirrors path memory document) {batch : Batch}
    (same : document.volume.refusal = memory.volume.refusal)
    (canonical : ∀ node ∈ batch.puts, Path.Canonical node.path)
    (storable : ∀ node ∈ batch.puts, node.Storable)
    (encodable : ∀ key ∈ (memory.commit batch).system.tree.keys, isValidUtf8 key = true)
    (host : ∀ fault, (document.commit batch).result = .error fault → fault.isHost = false) :
    (document.commit batch).result = (memory.commit batch).result ∧
      Mirrors path (memory.commit batch).system (document.commit batch).system := by
  cases some : batch.isEmpty with
  | true =>
    unfold FileSystem.commit
    rw [some, if_pos rfl, if_pos rfl]
    exact ⟨rfl, h⟩
  | false =>
    cases refusal : memory.volume.refusal with
    | some reason =>
      obtain ⟨memory_result, memory_system⟩ := commit_of_refusal some refusal
      obtain ⟨document_result, document_system⟩ := commit_of_refusal some (same.trans refusal)
      rw [memory_result, document_result, memory_system, document_system]
      exact ⟨rfl, h⟩
    | none =>
      have taken : (memory.volume.commit batch).result = .ok () :=
        (Volume.commit_of_memory h.memory_store refusal).1
      rw [tree_commit_of_ok ((memory.commit_of_some some).1.trans taken)] at encodable
      obtain ⟨document_result, memory_result, mirrors⟩ :=
        h.commit_free some refusal (same.trans refusal) canonical storable encodable host
      exact ⟨document_result.trans memory_result.symm, mirrors⟩

/-! ## Requests -/

theorem Mirrors.facing (h : Mirrors path memory document) (obstacle : Option Obstacle) :
    Mirrors path (memory.facing obstacle) (document.facing obstacle) :=
  { h with }

/-- **A change** of the same plan gives the same over memory and over a document. -/
theorem Mirrors.change (h : Mirrors path memory document) {plan : Outcome Change}
    (same : document.volume.refusal = memory.volume.refusal)
    (canonical : ∀ change, plan = .ok change → ∀ node ∈ change.batch.puts,
      Path.Canonical node.path)
    (storable : ∀ change, plan = .ok change → ∀ node ∈ change.batch.puts, node.Storable)
    (encodable : ∀ key ∈ (memory.change plan).system.tree.keys, isValidUtf8 key = true)
    (host : ∀ fault, (document.change plan).result = .error fault → fault.isHost = false) :
    (document.change plan).result = (memory.change plan).result ∧
      Mirrors path (memory.change plan).system (document.change plan).system := by
  cases plan with
  | error fault => exact ⟨rfl, h⟩
  | ok change => exact h.commit same (canonical change rfl) (storable change rfl) encodable host

/-- **Reading** gives the same, and moves the same time of access. -/
theorem Mirrors.read (h : Mirrors path memory document) {now : Int} (clock : isTimestamp now)
    (place : Bytes) :
    (document.read now place).result = (memory.read now place).result ∧
      Mirrors path (memory.read now place).system (document.read now place).system := by
  unfold FileSystem.read
  rw [h.tree]
  cases stat : memory.tree.stat place with
  | error fault => exact ⟨rfl, h⟩
  | ok node =>
    dsimp only
    split
    · exact ⟨rfl, h⟩
    · obtain ⟨entry, -, found⟩ := Tree.stat_eq_ok_iff.1 stat
      obtain ⟨canonical, rfl⟩ := h.keyed entry node found
      have put : ∀ record ∈ (Batch.put { node with accessed := now }).puts,
          Path.Canonical record.path ∧ record.Storable :=
        List.forall_mem_singleton.2 ⟨canonical, (h.storable _ node found).access clock⟩
      exact ⟨rfl, { h with
        tree := rfl
        keyed := Tree.keyed_apply h.keyed fun record mem => (put record mem).1
        storable := h.storable.apply fun record mem => (put record mem).2
        drift := h.drift.trans (map_forgetAccess_put now found).symm }⟩

end FileSystem

open FileSystem

variable {path : Bytes} {memory document : FileSystem}

/-- **Every request** gives the same over memory and over a document. -/
theorem Request.mirrors_run (h : Mirrors path memory document) {request : Request}
    (clock : isTimestamp request.now)
    (encodable : ∀ key ∈ (request.run memory).system.tree.keys, isValidUtf8 key = true)
    (host : ∀ fault, (request.run document).result = .error fault → fault.isHost = false) :
    (request.run document).result = (request.run memory).result ∧
      Mirrors path (request.run memory).system (request.run document).system := by
  obtain ⟨operation, now, obstacle⟩ := request
  have facing := h.facing obstacle
  cases operation with
  | edit edit =>
    rw [run_edit] at encodable
    rw [run_edit, h.tree] at host ⊢
    rw [run_edit]
    obtain ⟨result, mirrors⟩ := facing.change rfl
      (fun _ ok => edit.plan_canonical h.keyed ok)
      (fun _ ok => edit.plan_storable h.storable clock ok) encodable fun fault fails =>
        host fault (congrArg (Except.map _) fails)
    exact ⟨congrArg (Except.map _) result, mirrors⟩
  | read place =>
    obtain ⟨result, mirrors⟩ := facing.read clock place
    exact ⟨congrArg (Except.map Reply.content) result, mirrors⟩
  | query question =>
    refine ⟨?_, facing⟩
    change question.answer document.tree = question.answer memory.tree
    rw [h.tree]

/-! ## Runs -/

/-- What a caller sees of a step: its result and the tree behind it. -/
def FileSystemStep.shown {α : Type} (step : FileSystemStep α) : Outcome α × Tree :=
  (step.result, step.system.tree)

/-- The steps of a run, one for each request. -/
def FileSystem.runAll (fs : FileSystem) : List Request → List (FileSystemStep Reply)
  | [] => []
  | request :: rest => request.run fs :: runAll (request.run fs).system rest

/-- The host could not do what the step asked of it. -/
def FileSystemStep.hostFails {α : Type} (step : FileSystemStep α) : Bool :=
  match step.result with
  | .ok _ => false
  | .error fault => fault.isHost

theorem isHost_eq_false {α : Type} {step : FileSystemStep α} (h : step.hostFails = false)
    {fault : Fault} (fails : step.result = .error fault) : fault.isHost = false := by
  rwa [FileSystemStep.hostFails, fails] at h

/-- **A run shows the same over memory and over a document**, which can be loaded after every
step. -/
theorem FileSystem.Mirrors.runAll {requests : List Request} (h : Mirrors path memory document)
    (clocks : ∀ request ∈ requests, isTimestamp request.now)
    (encodable : ∀ step ∈ memory.runAll requests, ∀ key ∈ step.system.tree.keys,
      isValidUtf8 key = true)
    (host : ∀ step ∈ document.runAll requests, step.hostFails = false) :
    (document.runAll requests).map FileSystemStep.shown =
        (memory.runAll requests).map FileSystemStep.shown ∧
      ∀ step ∈ document.runAll requests, step.system.Reloads := by
  induction requests generalizing memory document with
  | nil => exact ⟨rfl, fun _ mem => absurd mem List.not_mem_nil⟩
  | cons request rest ih =>
    obtain ⟨clock, clocks⟩ := List.forall_mem_cons.1 clocks
    obtain ⟨first, encodable⟩ := List.forall_mem_cons.1 encodable
    obtain ⟨asked, host⟩ := List.forall_mem_cons.1 host
    obtain ⟨result, mirrors⟩ := request.mirrors_run h clock first fun _ => isHost_eq_false asked
    obtain ⟨shown, reloads⟩ := ih mirrors clocks encodable host
    refine ⟨?_, List.forall_mem_cons.2 ⟨mirrors.reloads, reloads⟩⟩
    rw [FileSystem.runAll, FileSystem.runAll, List.map_cons, List.map_cons, shown]
    rw [FileSystemStep.shown, FileSystemStep.shown, result, mirrors.tree]

/-! ## Opening -/

theorem FileSystem.seed_eq (fs : FileSystem) (now : Int) :
    (fs.seed now).result = (fs.commit { puts := standardTree now }).result ∧
      (fs.seed now).system = (fs.commit { puts := standardTree now }).system := by
  unfold seed
  dsimp only
  split
  · exact ⟨rfl, rfl⟩
  · exact ⟨rfl, rfl⟩

/-- Opening what has no records comes to committing the standard tree. -/
theorem FileSystem.load_of_empty {fs : FileSystem} {now : Int}
    (empty : fs.volume.load.result = .ok []) :
    (fs.load now).result = (FileSystem.commit { volume := fs.volume.load.volume }
        { puts := standardTree now }).result ∧
      (fs.load now).system = (FileSystem.commit { volume := fs.volume.load.volume }
        { puts := standardTree now }).system := by
  have rootless : (prune (index [])).1.contains Path.root = false := rfl
  have tree : (prune (index [])).1 = ∅ := rfl
  obtain ⟨result, system⟩ := FileSystem.seed_eq { volume := fs.volume.load.volume } now
  unfold load
  dsimp only
  rw [empty]
  dsimp only
  rw [rootless, if_neg nofun, tree]
  exact ⟨result, system⟩

theorem Volume.loadDocument_of_nil {v : Volume} {path : Bytes}
    (empty : (v.loadDocument path).result = .ok []) :
    (v.loadDocument path).volume.store = .document path ∅ ∧
      (v.loadDocument path).volume.refusal = v.refusal := by
  unfold loadDocument at empty ⊢
  dsimp only at empty ⊢
  split
  · exact ⟨rfl, rfl⟩
  next there =>
    rw [if_neg there] at empty
    split at empty
    · cases empty
    · split at empty
      · cases empty
      · cases empty
        exact ⟨rfl, rfl⟩

/-- Every standard path is UTF-8. -/
theorem isValidUtf8_standardTree {now : Int} :
    ∀ key ∈ (({ puts := standardTree now } : Batch).apply ∅).keys, isValidUtf8 key = true := by
  have ascii : standardPlaces.all (fun place => isAscii place.1) = true := by decide
  intro key mem
  obtain ⟨node, found⟩ := ByteMap.contains_eq_true_iff.1 (ByteMap.mem_keys_iff.1 mem)
  obtain ⟨put, rfl⟩ | ⟨-, ⟨⟩⟩ := Batch.put_or_kept_of_apply found
  exact isValidUtf8_of_isAscii (List.all_eq_true.1 ascii _ (mem_standardPlaces put))

/-- Every standard time is that of the opening. -/
theorem standardTree_storable {now : Int} (h : isTimestamp now) :
    ∀ node ∈ standardTree now, node.Storable := by
  intro node mem
  have sized := sized_standardTree mem
  obtain ⟨path, body, mode, owner, -, rfl⟩ := standardTree_made mem
  exact ⟨Inode.make_timely path body mode owner h, sized⟩

/-! ## The refinement -/

namespace FileSystem

/-- A file system over memory that has not been opened. -/
def inMemory : FileSystem := { volume := { store := .memory ∅ } }

/-- A file system over a document that has not been opened. -/
def onDocument (path : Bytes) (disk : Disk) : FileSystem :=
  { volume := { store := .document path ∅, disk } }

variable {path : Bytes} {disk : Disk} {now : Int}

/-- **Opening** writes the standard tree to either store. -/
theorem mirrors_load (empty : (onDocument path disk).volume.load.result = .ok [])
    (clock : isTimestamp now) (host : ((onDocument path disk).load now).hostFails = false) :
    ((onDocument path disk).load now).result = .ok () ∧ (inMemory.load now).result = .ok () ∧
      Mirrors path (inMemory.load now).system ((onDocument path disk).load now).system := by
  obtain ⟨store, free⟩ := Volume.loadDocument_of_nil empty
  obtain ⟨memory_result, memory_system⟩ := @load_of_empty inMemory now rfl
  obtain ⟨document_result, document_system⟩ := @load_of_empty (onDocument path disk) now empty
  have aligned : Aligned path { volume := inMemory.volume.load.volume }
      { volume := (onDocument path disk).volume.load.volume } := {
    tree := rfl
    memory_store := rfl
    document_store := store
    keyed := nofun
    storable := nofun
    records_storable := nofun
    drift := rfl }
  have canonical : ∀ node ∈ standardTree now, Path.Canonical node.path := by
    intro node mem
    exact (standardPlaces_wellFormed _ (mem_standardPlaces mem)).1
  rw [memory_result, document_result, memory_system, document_system]
  refine aligned.commit_free rfl rfl free canonical (standardTree_storable clock)
    isValidUtf8_standardTree fun fault fails => ?_
  exact isHost_eq_false host (document_result.trans fails)

end FileSystem

/-- **A document refines memory.** Opened on an empty store, and asked the same at the same times,
the file system over a document gives the results of the one over memory and has the same tree
after every step, as long as all paths are UTF-8 and the host does what it is asked; and after every
step a fresh store loads from the document the records of the tree, up to their times of access.
What files and links hold may be any bytes. -/
theorem document_refines_memory {path : Bytes} {disk : Disk} {now : Int} {requests : List Request}
    (empty : (onDocument path disk).volume.load.result = .ok [])
    (clock : isTimestamp now) (clocks : ∀ request ∈ requests, isTimestamp request.now)
    (encodable : ∀ step ∈ (inMemory.load now).system.runAll requests,
      ∀ key ∈ step.system.tree.keys, isValidUtf8 key = true)
    (opens : ((onDocument path disk).load now).hostFails = false)
    (host : ∀ step ∈ ((onDocument path disk).load now).system.runAll requests,
      step.hostFails = false) :
    ((onDocument path disk).load now).result = .ok () ∧
      ((onDocument path disk).load now).shown = (inMemory.load now).shown ∧
      ((onDocument path disk).load now).system.Reloads ∧
      (((onDocument path disk).load now).system.runAll requests).map FileSystemStep.shown =
        ((inMemory.load now).system.runAll requests).map FileSystemStep.shown ∧
      ∀ step ∈ ((onDocument path disk).load now).system.runAll requests,
        step.system.Reloads := by
  obtain ⟨document_result, memory_result, mirrors⟩ := mirrors_load empty clock opens
  refine ⟨document_result, ?_, mirrors.reloads, mirrors.runAll clocks encodable host⟩
  rw [FileSystemStep.shown, FileSystemStep.shown, document_result, memory_result, mirrors.tree]

/-- A file of bytes that are no UTF-8 is written and read. -/
theorem document_refines_memory_raw :
    let requests : List Request :=
      [⟨.edit (.write (ascii "/tmp/b") [0xFF, 0]), 1, none⟩, ⟨.read (ascii "/tmp/b"), 2, none⟩]
    let document := ((onDocument (ascii "store/vfs.json") .empty).load 0).system
    (document.runAll requests).map (fun step => step.result.toOption) =
        [some .done, some (.content [0xFF, 0])] ∧
      (document.runAll requests).map FileSystemStep.shown =
        ((inMemory.load 0).system.runAll requests).map FileSystemStep.shown ∧
      ∀ step ∈ document.runAll requests, step.system.Reloads := by
  refine ⟨by decide +kernel, (document_refines_memory rfl ?_ ?_ ?_ ?_ ?_).2.2.2⟩
  · decide
  · decide
  · decide +kernel
  · decide +kernel
  · decide +kernel

end VirtualShell
