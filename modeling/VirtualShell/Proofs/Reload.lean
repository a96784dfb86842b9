import VirtualShell.Proofs.Refinement
import VirtualShell.Proofs.Tree.Landing

/-!
# Loading again

A file system that is loaded a second time shows the tree that it showed before, but for the times
of access, if its store holds just the records of the tree. That is so while nothing has been
changed since the first time, and for good if the records were whole when they were first read: each
under its own canonical path, in a directory. Then every commit does the same to the records as to
the tree (`Held.request`). What the first load has dropped, or put under another path, stays in the
store and can come back (`not_reload_of_orphan`).

* `Volume.Rereads`: what the store holds can be read from it again.
* `Held`: the store holds the records of the tree, which has a root.
* `reload_shows`: so loading again shows what stands in directories.
-/

namespace VirtualShell

/-! ## Maps and lists of records -/

namespace ByteMap

variable {β γ : Type}

theorem keys_map (f : β → γ) (m : ByteMap β) : (m.map f).keys = m.keys := by
  simp [keys, Function.comp_def]

end ByteMap

/-- The records under the paths that they have. -/
def recordsOf (inodes : List Inode) : Records :=
  ByteMap.ofList (inodes.map fun node => (node.path, node))

theorem find?_recordsOf {inodes : List Inode} {node : Inode} (mem : node ∈ inodes) :
    ∃ last, (recordsOf inodes).find? node.path = some last := by
  obtain ⟨last, h⟩ := Batch.last?_isSome mem
  refine ⟨last, ?_⟩
  have applied := Batch.find?_apply { puts := inodes } ∅ node.path
  rw [h, Option.some_or] at applied
  exact applied

theorem mem_of_find?_recordsOf {inodes : List Inode} {key : Bytes} {node : Inode}
    (found : (recordsOf inodes).find? key = some node) : node ∈ inodes := by
  obtain ⟨listed, mem, same⟩ :=
    List.mem_map.1 (ByteMap.mem_ofList (ByteMap.mem_of_find? found))
  obtain ⟨-, rfl⟩ := Prod.mk.inj same
  exact mem

theorem recordsOf_values {records : Records} (h : Tree.Keyed records) :
    recordsOf records.values = records := by
  have entries : records.values.map (fun node => (node.path, node)) = records.entries := by
    rw [ByteMap.values, List.map_map]
    refine (List.map_congr_left fun e mem => ?_).trans (List.map_id _)
    exact Prod.ext (h _ _ (ByteMap.find?_of_mem mem)).2 rfl
  refine ByteMap.eq_of_entries ?_
  rw [recordsOf, entries, ByteMap.entries_ofList records.sorted]

namespace FileSystem

/-- **Records under canonical paths** are indexed as they are. -/
theorem index_of_keyed {inodes : List Inode} (h : Tree.Keyed (recordsOf inodes)) :
    index inodes = recordsOf inodes := by
  refine congrArg ByteMap.ofList (List.map_congr_left fun node mem => ?_)
  obtain ⟨last, found⟩ := find?_recordsOf mem
  have canonical : Path.resolve node.path = node.path := (h _ _ found).1
  rw [canonical]

/-! ## Pruning -/

/-- What is dropped does not hang on what a map forgets, if that leaves the kinds. -/
theorem prune_map {f : Inode → Inode} (hf : ∀ node, (f node).isDirectory = node.isDirectory)
    (tree : Tree) : (prune (tree.map f)).1 = (prune tree).1.map f := by
  have step : ∀ (kept : Tree × List Bytes) (path : Bytes),
      dropOrphan (kept.1.map f, kept.2) path =
        ((dropOrphan kept path).1.map f, (dropOrphan kept path).2) := by
    intro kept path
    have same : ((kept.1.map f).find? (Path.parent path)).any Inode.isDirectory =
        (kept.1.find? (Path.parent path)).any Inode.isDirectory := by
      rw [ByteMap.find?_map, Option.any_map]
      exact congrArg (Option.any · _) (funext hf)
    rw [dropOrphan, dropOrphan, same]
    split
    · rfl
    · rw [ByteMap.map_erase]
  have steps : ∀ (keys : List Bytes) (kept : Tree × List Bytes),
      keys.foldl dropOrphan (kept.1.map f, kept.2) =
        ((keys.foldl dropOrphan kept).1.map f, (keys.foldl dropOrphan kept).2) := by
    intro keys
    induction keys with
    | nil => exact fun _ => rfl
    | cons key keys ih =>
      intro kept
      rw [List.foldl_cons, List.foldl_cons, step, ih]
  rw [prune, ByteMap.keys_map, steps tree.keys (tree, [])]
  rfl

/-- Nothing is dropped where all stands in directories. -/
theorem prune_eq_self {tree : Tree} (h : ∀ path node, tree.find? path = some node →
    path ≠ Path.root → tree.IsDir (Path.parent path)) : (prune tree).1 = tree := by
  have keeps : ∀ keys : List Bytes, (∀ key ∈ keys, key ∈ tree.keys) →
      keys.foldl dropOrphan (tree, []) = (tree, []) := by
    intro keys
    induction keys with
    | nil => exact fun _ => rfl
    | cons key keys ih =>
      intro all
      obtain ⟨first, others⟩ := List.forall_mem_cons.1 all
      obtain ⟨node, found⟩ := ByteMap.contains_eq_true_iff.1 (ByteMap.mem_keys_iff.1 first)
      have stands : key = Path.root ∨
          (tree.find? (Path.parent key)).any Inode.isDirectory = true := by
        by_cases root : key = Path.root
        · exact .inl root
        · exact .inr (Tree.isDir_iff_any.1 (h key node found root))
      rw [List.foldl_cons, dropOrphan, if_pos stands, ih others]
  rw [prune, keeps tree.keys fun _ mem => mem]

end FileSystem

/-! ## What a store reads -/

namespace Volume

variable {v : Volume} {inodes : List Inode} {batch : Batch}

/-- What a store holds can be read from it again: in memory or in the document on the disk. -/
def Reads (v : Volume) (inodes : List Inode) : Prop :=
  match v.store with
  | .memory records => inodes = records.values
  | .document path _ =>
    ∃ text, v.disk.read path = .ok text ∧ Store.readDocument path text = .ok inodes

theorem Reads.load (h : v.Reads inodes) : v.load.result = .ok inodes := by
  unfold Reads at h
  unfold Volume.load
  cases store : v.store with
  | memory records =>
    rw [store] at h
    rw [h]
  | document path records =>
    rw [store] at h
    obtain ⟨text, read, found⟩ := h
    dsimp only
    unfold loadDocument
    rw [Disk.contains_of_read read, read]
    dsimp only
    rw [found]
    rfl

/-- **What is loaded** is what can be read again, unless there is no document yet; a document's
records stand under the paths that they have. -/
theorem load_cases (loaded : v.load.result = .ok inodes) :
    (v.load.volume.Reads inodes ∨ inodes = []) ∧
      (v.load.volume.store.records = recordsOf inodes ∨
        inodes = v.load.volume.store.records.values) := by
  unfold Volume.load at loaded ⊢
  cases store : v.store with
  | memory records =>
    rw [store] at loaded
    cases loaded
    refine ⟨.inl ?_, .inr ?_⟩
    · unfold Reads
      rw [store]
    · rw [store]
      rfl
  | document path records =>
    rw [store] at loaded
    dsimp only at loaded ⊢
    unfold loadDocument at loaded ⊢
    dsimp only at loaded ⊢
    split at loaded
    next missing =>
      cases loaded
      rw [if_pos missing]
      exact ⟨.inr rfl, .inl rfl⟩
    next there =>
      rw [if_neg there]
      split at loaded
      · cases loaded
      next text read =>
        split at loaded
        · cases loaded
        next found =>
          cases loaded
          exact ⟨.inl ⟨text, read, found⟩, .inl rfl⟩

/-- What a document holds can be given back by one. -/
theorem Reads.storable (h : v.Reads inodes) {path : Bytes} {records : Records}
    (store : v.store = .document path records) : ∀ node ∈ inodes, node.Storable := by
  unfold Reads at h
  rw [store] at h
  obtain ⟨text, -, found⟩ := h
  exact Store.storable_of_readDocument found

/-- **A commit that fails** leaves what can be read. -/
theorem Reads.commit_of_error (h : v.Reads inodes) (guarded : v.Guarded) {fault : Fault}
    (fails : (v.commit batch).result = .error fault) : (v.commit batch).volume.Reads inodes := by
  have store := Volume.store_commit_of_error fails
  unfold Reads at h ⊢
  rw [store]
  cases kept : v.store with
  | memory records =>
    rw [kept] at h
    exact h
  | document path records =>
    rw [kept] at h
    obtain ⟨text, read, found⟩ := h
    refine ⟨text, ?_, found⟩
    unfold commit at fails ⊢
    split at fails
    · exact read
    · rw [kept] at fails ⊢
      dsimp only at fails ⊢
      split at fails
      · cases fails
      next some =>
        rw [if_neg some]
        exact Disk.read_of_stands (stands_commitDocument_of_error fails)
          (fileAt_commitDocument_of_error (guarded.apart kept) fails) read

/-- **A commit that succeeds** leaves the records with the batch in them, to be read. -/
theorem reads_commit_of_ok (some : batch.isEmpty = false)
    (storable : ∀ path records, v.store = .document path records →
      ∀ node ∈ (batch.apply records).values, node.Storable)
    (taken : (v.commit batch).result = .ok ()) :
    (v.commit batch).volume.store = v.store.withRecords (batch.apply v.store.records) ∧
      (v.commit batch).volume.Reads (batch.apply v.store.records).values := by
  unfold commit at taken ⊢
  split at taken
  · cases taken
  · cases kept : v.store with
    | memory records => exact ⟨rfl, rfl⟩
    | document path records =>
      rw [kept] at taken
      dsimp only at taken ⊢
      rw [if_neg (Bool.eq_false_iff.1 some)] at taken
      rw [if_neg (Bool.eq_false_iff.1 some)]
      have store := records_commitDocument_of_ok taken
      obtain ⟨text, written, read⟩ := isStored_of_ok taken
      refine ⟨store, ?_⟩
      unfold Reads
      rw [store]
      exact ⟨text, read, Store.readDocument_of_write (storable path records kept) written path⟩

end Volume

/-! ## The invariant -/

namespace FileSystem

/-- The records of the store are those of the tree, up to times of access; those that a document
is to take are given back by it. -/
structure Matches (fs : FileSystem) : Prop where
  keyed : Tree.Keyed fs.volume.store.records
  drift : fs.volume.store.records.map Inode.forgetAccess = fs.tree.map Inode.forgetAccess
  storable : ∀ path records, fs.volume.store = .document path records →
    fs.tree.Storable ∧ Tree.Storable records

/-- **The store holds the tree**, which has a root, and can be read again. -/
structure Held (fs : FileSystem) : Prop extends Matches fs where
  reads : ∃ inodes, fs.volume.Reads inodes ∧ recordsOf inodes = fs.volume.store.records
  root : fs.tree.IsDir Path.root

variable {fs : FileSystem} {batch : Batch}

/-! ## Commits -/

/-- What a batch is to put into a store that may be a document. -/
def Fits (fs : FileSystem) (batch : Batch) : Prop :=
  (∀ node ∈ batch.puts, Path.Canonical node.path) ∧
    ∀ path records, fs.volume.store = .document path records → ∀ node ∈ batch.puts, node.Storable

/-- **A commit that succeeds** does the same to the tree and to the records. -/
theorem Matches.commit_of_ok (h : fs.Matches) (some : batch.isEmpty = false) (fits : fs.Fits batch)
    (taken : (fs.commit batch).result = .ok ()) :
    (fs.commit batch).system.Matches ∧ ∃ inodes, (fs.commit batch).system.volume.Reads inodes ∧
      recordsOf inodes = (fs.commit batch).system.volume.store.records := by
  obtain ⟨result, volume⟩ := fs.commit_of_some some
  have tree := tree_commit_of_ok taken
  have keyed := Tree.keyed_apply h.keyed fits.1
  have storable : ∀ path records, fs.volume.store = .document path records →
      Tree.Storable (batch.apply records) := fun path records store =>
    (h.storable path records store).2.apply (fits.2 path records store)
  obtain ⟨store, reads⟩ := Volume.reads_commit_of_ok some (fun path records store node mem =>
    let ⟨key, found⟩ := ByteMap.mem_values_iff.1 mem
    storable path records store key node found) (result ▸ taken)
  have records : (fs.commit batch).system.volume.store.records =
      batch.apply fs.volume.store.records := by
    rw [volume, store]
    cases fs.volume.store <;> rfl
  refine ⟨⟨?_, ?_, fun path records' place => ?_⟩, _, volume ▸ reads, ?_⟩
  · rw [records]
    exact keyed
  · rw [records, tree]
    exact batch.map_forgetAccess_apply h.drift
  · rw [volume, store] at place
    cases kept : fs.volume.store with
    | memory old =>
      rw [kept] at place
      cases place
    | document path' old =>
      rw [kept] at place
      cases place
      refine ⟨?_, storable _ _ kept⟩
      rw [tree]
      exact (h.storable _ _ kept).1.apply (fits.2 _ _ kept)
  · rw [records]
    exact recordsOf_values keyed

/-- **Every commit** leaves the tree held, if it leaves the root. -/
theorem Held.commit (h : fs.Held) (guarded : fs.volume.Guarded) (fits : fs.Fits batch)
    (root : Tree.IsDir (batch.apply fs.tree) Path.root) : (fs.commit batch).system.Held := by
  cases some : batch.isEmpty with
  | true =>
    unfold FileSystem.commit
    rw [some, if_pos rfl]
    exact h
  | false =>
    cases result : (fs.commit batch).result with
    | ok u =>
      obtain ⟨matched, reads⟩ := h.commit_of_ok some fits result
      exact ⟨matched, reads, by rwa [tree_commit_of_ok result]⟩
    | error fault =>
      obtain ⟨inodes, reads, same⟩ := h.reads
      obtain ⟨asked, volume⟩ := fs.commit_of_some some
      have fails := asked.symm.trans result
      have store := Volume.store_commit_of_error fails
      have tree := tree_commit_of_error result
      rw [← volume] at store
      refine ⟨⟨?_, ?_, ?_⟩, ⟨inodes, ?_, ?_⟩, ?_⟩
      · rw [store]
        exact h.keyed
      · rw [store, tree]
        exact h.drift
      · rw [store, tree]
        exact h.storable
      · rw [volume]
        exact reads.commit_of_error guarded fails
      · rw [store]
        exact same
      · rw [tree]
        exact h.root

/-! ## Requests -/

/-- The tree has the keys and paths of the records. -/
theorem Matches.tree_keyed (h : fs.Matches) : fs.tree.Keyed := by
  intro path node found
  have forgotten : (fs.volume.store.records.map Inode.forgetAccess).find? path =
      some node.forgetAccess := by
    rw [h.drift, ByteMap.find?_map, found]
    rfl
  rw [ByteMap.find?_map, Option.map_eq_some_iff] at forgotten
  obtain ⟨record, there, same⟩ := forgotten
  obtain ⟨canonical, at_path⟩ := h.keyed path record there
  have paths : record.forgetAccess.path = node.forgetAccess.path := congrArg Inode.path same
  change record.path = node.path at paths
  exact ⟨canonical, paths ▸ at_path⟩

theorem Held.facing (h : fs.Held) (obstacle : Option Obstacle) : (fs.facing obstacle).Held :=
  ⟨⟨h.keyed, h.drift, h.storable⟩, h.reads, h.root⟩

/-- **Reading** moves a time of access in the tree alone. -/
theorem Held.read (h : fs.Held) {now : Int} (clock : isTimestamp now) (path : Bytes) :
    (fs.read now path).system.Held := by
  rcases fs.system_read now path with same | ⟨place, node, found, moved⟩
  · rw [same]
    exact h
  obtain ⟨canonical, rfl⟩ := h.tree_keyed _ _ found
  rw [moved]
  refine ⟨⟨h.keyed, h.drift.trans (map_forgetAccess_put now found).symm, ?_⟩, h.reads, ?_⟩
  · intro path records store
    obtain ⟨tree, records⟩ := h.storable path records store
    exact ⟨tree.apply (List.forall_mem_singleton.2 ((tree _ node found).access clock)), records⟩
  · refine h.root.apply List.not_mem_nil fun put mem same => ?_
    obtain rfl := List.mem_singleton.1 mem
    have dir : node.isDirectory = true := h.root.of_find? (same ▸ found)
    exact dir

end FileSystem

open FileSystem

/-- **Every request** leaves the tree held. -/
theorem Request.held_run {fs : FileSystem} (h : fs.Held) {request : Request}
    (clock : isTimestamp request.now) (guarded : request.Guarded fs) :
    (request.run fs).system.Held := by
  obtain ⟨operation, now, obstacle⟩ := request
  have facing := h.facing obstacle
  cases operation with
  | edit edit =>
    rw [run_edit, FileSystemStep.map]
    have keyed := h.tree_keyed
    cases plan : edit.plan fs.tree now with
    | error fault => exact facing
    | ok change =>
      refine facing.commit guarded ⟨edit.plan_canonical keyed plan, fun path records store => ?_⟩ ?_
      · exact edit.plan_storable (h.storable path records store).1 clock plan
      · exact Edit.isDir_plan keyed plan Path.canonical_root rfl h.root
          (Edit.root_not_mem_erases keyed h.root plan)
  | read path => exact facing.read clock path
  | query question => exact facing

namespace FileSystem

/-! ## Loading again -/

/-- Loaded once more, the file system shows the tree, up to times of access. -/
def ReloadsAs (fs : FileSystem) (now : Int) (tree : Tree) : Prop :=
  (fs.load now).result = .ok () ∧
    (fs.load now).system.tree.map Inode.forgetAccess = tree.map Inode.forgetAccess

variable {fs : FileSystem}

/-- Loading what has a root is pruning the index. -/
theorem load_of_root (now : Int) {inodes : List Inode} {root : Inode}
    (loaded : fs.volume.load.result = .ok inodes)
    (there : (prune (index inodes)).1.find? Path.root = some root) :
    (fs.load now).result = .ok () ∧ (fs.load now).system.tree = (prune (index inodes)).1 ∧
      (fs.load now).system.volume = fs.volume.load.volume := by
  have contains : (prune (index inodes)).1.contains Path.root = true :=
    ByteMap.contains_eq_true_iff.2 ⟨root, there⟩
  unfold load
  dsimp only
  rw [loaded]
  dsimp only
  rw [if_pos contains]
  exact ⟨rfl, rfl, rfl⟩

/-- **What is held** is shown again, but for what stands in no directory. -/
theorem Held.reloads (h : fs.Held) (now : Int) : fs.ReloadsAs now (prune fs.tree).1 := by
  obtain ⟨inodes, reads, same⟩ := h.reads
  have index := index_of_keyed (same ▸ h.keyed)
  rw [same] at index
  have kinds : ∀ node : Inode, node.forgetAccess.isDirectory = node.isDirectory := fun _ => rfl
  have shown : (prune (FileSystem.index inodes)).1.map Inode.forgetAccess =
      (prune fs.tree).1.map Inode.forgetAccess := by
    rw [index, ← prune_map kinds, h.drift, prune_map kinds]
  obtain ⟨root, there, -⟩ := h.root
  have rooted : ((prune (FileSystem.index inodes)).1.map Inode.forgetAccess).find? Path.root =
      some root.forgetAccess := by
    rw [shown, ByteMap.find?_map, (pruning_prune h.tree_keyed).root, there]
    rfl
  rw [ByteMap.find?_map, Option.map_eq_some_iff] at rooted
  obtain ⟨record, stands, -⟩ := rooted
  obtain ⟨result, tree, -⟩ := load_of_root now reads.load stands
  exact ⟨result, by rw [tree, shown]⟩

/-- The records that the store has when it is loaded: none, or a sound tree. -/
def LoadsWhole (fs : FileSystem) : Prop :=
  fs.volume.load.volume.store.records = ∅ ∨ Tree.Sound fs.volume.load.volume.store.records

/-- What the first loading of no records makes is held. -/
theorem held_load_of_empty {now : Int} (opens : (fs.load now).result = .ok ())
    (clock : isTimestamp now) (loaded : fs.volume.load.result = .ok [])
    (none : fs.volume.load.volume.store.records = ∅) : (fs.load now).system.Held := by
  obtain ⟨result, system⟩ := @load_of_empty fs now loaded
  have level : Matches { volume := fs.volume.load.volume } := by
    refine ⟨?_, ?_, fun path records store => ⟨nofun, ?_⟩⟩
    · rw [none]
      exact nofun
    · rw [none]
    · rw [store] at none
      obtain rfl : records = ∅ := none
      exact nofun
  have canonical : ∀ node ∈ standardTree now, Path.Canonical node.path := fun node mem =>
    (standardPlaces_wellFormed _ (mem_standardPlaces mem)).1
  have fits : Fits { volume := fs.volume.load.volume } { puts := standardTree now } :=
    ⟨canonical, fun _ _ _ => standardTree_storable clock⟩
  obtain ⟨matched, reads⟩ := level.commit_of_ok rfl fits (result ▸ opens)
  rw [system]
  refine ⟨matched, reads, ?_⟩
  rw [tree_commit_of_ok (result ▸ opens)]
  exact (@standardTree_sound ∅ (fun _ => rfl) now).root

/-- What the first loading of a sound tree makes is held. -/
theorem held_load_of_sound {now : Int} {inodes : List Inode}
    (loaded : fs.volume.load.result = .ok inodes)
    (reads : fs.volume.load.volume.Reads inodes ∨ inodes = [])
    (same : recordsOf inodes = fs.volume.load.volume.store.records)
    (sound : Tree.Sound fs.volume.load.volume.store.records) : (fs.load now).system.Held := by
  have index := (index_of_keyed (same ▸ sound.keyed)).trans same
  have pruned := prune_eq_self sound.parents
  rw [← index] at pruned
  obtain ⟨root, there, dir⟩ := sound.root
  obtain ⟨-, tree, volume⟩ := load_of_root now loaded (by rw [pruned, index, there])
  have reads : fs.volume.load.volume.Reads inodes := by
    refine reads.resolve_right fun empty => ?_
    rw [← same, empty] at there
    cases there
  have level : (fs.load now).system.tree = (fs.load now).system.volume.store.records := by
    rw [tree, pruned, index, volume]
  refine ⟨⟨?_, ?_, fun path records store => ?_⟩, ⟨inodes, ?_, ?_⟩, ?_⟩
  · rw [volume]
    exact sound.keyed
  · rw [level]
  · have storable : Tree.Storable records := by
      intro key node found
      rw [volume] at store
      have listed : recordsOf inodes = records := by
        rw [same, store]
        rfl
      exact reads.storable store node (mem_of_find?_recordsOf (listed ▸ found))
    refine ⟨?_, storable⟩
    rw [level, store]
    exact storable
  · rw [volume]
    exact reads
  · rw [volume]
    exact same
  · rw [level, volume]
    exact ⟨root, there, dir⟩

/-- **Whole records** are held from the first loading on. -/
theorem held_load {now : Int} (opens : (fs.load now).result = .ok ()) (clock : isTimestamp now)
    (whole : fs.LoadsWhole) : (fs.load now).system.Held := by
  obtain ⟨inodes, loaded, -⟩ := load_cases opens
  obtain ⟨reads, records⟩ := Volume.load_cases loaded
  have keyed : Tree.Keyed fs.volume.load.volume.store.records := by
    rcases whole with none | sound
    · rw [none]
      exact nofun
    · exact sound.keyed
  have same : recordsOf inodes = fs.volume.load.volume.store.records := by
    rcases records with e | e
    · exact e.symm
    · rw [e]
      exact recordsOf_values keyed
  rcases whole with none | sound
  · have empty : inodes = [] := by
      refine List.eq_nil_iff_forall_not_mem.2 fun node mem => ?_
      obtain ⟨_, found⟩ := find?_recordsOf mem
      rw [same, none] at found
      cases found
    exact held_load_of_empty opens clock (empty ▸ loaded) none
  · exact held_load_of_sound loaded reads same sound

/-! ## Until something is changed -/

/-- A change that fails leaves what can be read. -/
theorem reads_change_of_error {plan : Outcome Change} {inodes : List Inode} {fault : Fault}
    (h : fs.volume.Reads inodes) (guarded : fs.volume.Guarded)
    (fails : (fs.change plan).result = .error fault) :
    (fs.change plan).system.volume.Reads inodes := by
  cases plan with
  | error _ => exact h
  | ok change =>
    change (fs.commit change.batch).result = .error fault at fails
    change (fs.commit change.batch).system.volume.Reads inodes
    cases some : change.batch.isEmpty with
    | true =>
      unfold FileSystem.commit at fails
      rw [some, if_pos rfl] at fails
      cases fails
    | false =>
      obtain ⟨result, volume⟩ := fs.commit_of_some some
      rw [volume]
      exact h.commit_of_error guarded (result.symm.trans fails)

/-- Nothing has been changed since these records were loaded: they can be read, and the tree is
what has been kept of them, up to times of access. -/
structure Untouched (inodes : List Inode) (fs : FileSystem) : Prop where
  reads : fs.volume.Reads inodes
  keyed : fs.tree.Keyed
  drift : fs.tree.map Inode.forgetAccess = (prune (index inodes)).1.map Inode.forgetAccess

end FileSystem

/-- The request is an edit that succeeds. -/
def Request.Changes (fs : FileSystem) (request : Request) : Prop :=
  (∃ edit, request.operation = .edit edit) ∧ ∃ reply, (request.run fs).result = .ok reply

theorem Request.untouched_run {inodes : List Inode} {fs : FileSystem} (h : fs.Untouched inodes)
    {request : Request} (still : ¬ request.Changes fs) (guarded : request.Guarded fs) :
    (request.run fs).system.Untouched inodes := by
  obtain ⟨operation, now, obstacle⟩ := request
  cases operation with
  | edit edit =>
    cases result : (Request.run fs ⟨.edit edit, now, obstacle⟩).result with
    | ok reply => exact absurd ⟨⟨edit, rfl⟩, reply, result⟩ still
    | error fault =>
      have tree := tree_run_edit_of_error result
      refine ⟨?_, by rw [tree]; exact h.keyed, by rw [tree]; exact h.drift⟩
      rw [run_edit, FileSystemStep.map] at result ⊢
      cases fails : ((fs.facing obstacle).change (edit.plan fs.tree now)).result with
      | ok u =>
        rw [fails] at result
        cases result
      | error fault => exact reads_change_of_error h.reads guarded fails
  | read path =>
    rcases (fs.facing obstacle).system_read now path with same | ⟨place, node, found, moved⟩
    · exact same.symm ▸ ⟨h.reads, h.keyed, h.drift⟩
    · obtain ⟨canonical, rfl⟩ := h.keyed _ _ found
      refine moved.symm ▸ ⟨h.reads, ?_, (map_forgetAccess_put now found).trans h.drift⟩
      exact Tree.keyed_apply h.keyed (List.forall_mem_singleton.2 canonical)
  | query question => exact ⟨h.reads, h.keyed, h.drift⟩

namespace FileSystem

theorem find?_index_of_mem {inodes : List Inode} {node : Inode} (mem : node ∈ inodes) :
    ∃ last, (index inodes).find? (Path.resolve node.path) = some last := by
  obtain ⟨last, isLast⟩ := exists_isLast_iff.2 ⟨node, mem, rfl⟩
  exact ⟨_, find?_index_iff.2 ⟨last, isLast, rfl⟩⟩

/-- What the first loading keeps of records with a root among them. -/
theorem untouched_load {fs : FileSystem} {now : Int} {inodes : List Inode}
    (loaded : fs.volume.load.result = .ok inodes) {node : Inode} (mem : node ∈ inodes)
    (root : Path.resolve node.path = Path.root) : (fs.load now).system.Untouched inodes := by
  have keyed := index_keyed inodes
  obtain ⟨last, found⟩ := find?_index_of_mem mem
  rw [root, ← (pruning_prune keyed).root] at found
  obtain ⟨-, tree, volume⟩ := load_of_root now loaded found
  refine ⟨?_, ?_, congrArg _ tree⟩
  · rw [volume]
    refine (Volume.load_cases loaded).1.resolve_right ?_
    rintro rfl
    cases mem
  · rw [tree]
    exact prune_keyed keyed

/-- What is untouched is shown again. -/
theorem Untouched.reloads {fs : FileSystem} {inodes : List Inode} (h : fs.Untouched inodes)
    {node : Inode} (mem : node ∈ inodes) (root : Path.resolve node.path = Path.root) (now : Int) :
    fs.ReloadsAs now fs.tree := by
  obtain ⟨last, found⟩ := find?_index_of_mem mem
  rw [root, ← (pruning_prune (index_keyed inodes)).root] at found
  obtain ⟨result, tree, -⟩ := load_of_root now h.reads.load found
  exact ⟨result, by rw [tree, h.drift]⟩

/-- What is held is shown again as it is if and only if all of it stands in directories. -/
theorem Held.reloadsAs_iff {fs : FileSystem} (h : fs.Held) (now : Int) :
    fs.ReloadsAs now fs.tree ↔ ∀ path node, fs.tree.find? path = some node → path ≠ Path.root →
      fs.tree.IsDir (Path.parent path) := by
  have reloads := h.reloads now
  constructor
  · intro same path node found ne
    have pruned : ((prune fs.tree).1.map Inode.forgetAccess).find? path =
        some node.forgetAccess := by
      rw [← reloads.2, same.2, ByteMap.find?_map, found]
      rfl
    rw [ByteMap.find?_map, Option.map_eq_some_iff] at pruned
    obtain ⟨kept, there, -⟩ := pruned
    obtain ⟨above, stands, dir⟩ := prune_parents h.tree_keyed there ne
    exact ⟨above, (pruning_prune h.tree_keyed).kept _ _ stands, dir⟩
  · intro stands
    rwa [prune_eq_self stands] at reloads

end FileSystem

/-- **Loading again shows the same tree**, up to times of access: whatever the store could be
loaded with, if there was a root among it, for as long as no edit succeeds; and after any run of
requests, of which the store and the host may refuse any, if what was loaded was nothing or a sound
tree. What the host fails at must not reach the document, as it can under a path with a NUL in it.
Then all is shown that stands in directories, which is all there is unless a copy over a
directory has left records elsewhere. -/
theorem reload_shows {origin : FileSystem} {now later : Int}
    (opens : (origin.load now).result = .ok ()) (clock : isTimestamp now) :
    (∀ inodes, origin.volume.load.result = .ok inodes →
      (∃ node ∈ inodes, Path.resolve node.path = Path.root) →
      ∀ fs, Run (fun fs request => ¬ request.Changes fs ∧ request.Guarded fs)
          (origin.load now).system fs →
        fs.ReloadsAs later fs.tree) ∧
    (origin.LoadsWhole → ∀ fs,
      Run (fun fs request => isTimestamp request.now ∧ request.Guarded fs)
          (origin.load now).system fs →
        fs.ReloadsAs later (prune fs.tree).1 ∧
          (fs.ReloadsAs later fs.tree ↔ ∀ path node, fs.tree.find? path = some node →
            path ≠ Path.root → fs.tree.IsDir (Path.parent path))) := by
  constructor
  · rintro inodes loaded ⟨node, mem, root⟩ fs run
    have untouched := run.invariant (Untouched inodes) (untouched_load loaded mem root)
      fun _ _ h allowed => Request.untouched_run h allowed.1 allowed.2
    exact untouched.reloads mem root later
  · intro whole fs run
    have held := run.invariant Held (held_load opens clock whole)
      fun _ _ h allowed => Request.held_run h allowed.1 allowed.2
    exact ⟨held.reloads later, held.reloadsAs_iff later⟩

/-- What has been unlinked does not come back. -/
theorem reload_shows_of_unlink :
    let opened := (inMemory.load 0).system
    let write : Request := ⟨.edit (.write (ascii "/tmp/a") (ascii "x")), 1, none⟩
    let unlink : Request := ⟨.edit (.unlink (ascii "/tmp/a")), 2, none⟩
    let written := (write.run opened).system
    let fs := (unlink.run written).system
    written.tree.exists? (ascii "/tmp/a") = true ∧ fs.tree.exists? (ascii "/tmp/a") = false ∧
      fs.ReloadsAs 3 fs.tree := by
  intro opened write unlink written fs
  refine ⟨rfl, rfl, ?_⟩
  have first : Run (fun fs request => isTimestamp request.now ∧ request.Guarded fs)
      opened written := .request .start ⟨show isTimestamp 1 by decide, .inl rfl⟩
  have run : Run (fun fs request => isTimestamp request.now ∧ request.Guarded fs) opened fs :=
    .request first ⟨show isTimestamp 2 by decide, .inl rfl⟩
  have sound : opened.tree.Sound := load_sound rfl (Volume.sized_of_empty rfl)
    (by rintro inodes ⟨⟩ node ⟨⟩)
  have sound : fs.tree.Sound := Request.sound_run (Request.sound_run sound id) id
  exact (((@reload_shows inMemory 0 3 rfl (by decide)).2 (.inl rfl) fs run).2).2 sound.parents

/-- A document with a root and a file that stands in no directory. -/
def orphanDocument : Bytes :=
  ascii "\x7b\"version\": 1, \"inodes\": [" ++
    ascii "\x7b\"path\": \"/\", \"type\": \"dir\"\x7d, " ++
    ascii "\x7b\"path\": \"/a/b\", \"type\": \"file\"\x7d]\x7d"

/-- **An orphan comes back**: the file is dropped when the document is loaded, and is there again
when it is loaded once more after its directory has been made. -/
theorem not_reload_of_orphan :
    let origin := onDocument (ascii "vfs.json")
      (Disk.empty.place (ascii "vfs.json") orphanDocument)
    let opened := origin.load 0
    let made := Request.run opened.system ⟨.edit (.makeDirectory (ascii "/a")), 1, none⟩
    let again := made.system.load 2
    opened.result.toOption = some () ∧ made.result.toOption = some .done ∧
      again.result.toOption = some () ∧
      made.system.tree.contains (ascii "/a/b") = false ∧
      again.system.tree.contains (ascii "/a/b") = true ∧
      ¬ ∀ (fs : FileSystem) (later : Int),
        Run (fun _ _ => True) opened.system fs → fs.ReloadsAs later fs.tree := by
  intro origin opened made again
  have gone : made.system.tree.contains (ascii "/a/b") = false := by decide +kernel
  have back : again.system.tree.contains (ascii "/a/b") = true := by decide +kernel
  refine ⟨by decide +kernel, by decide +kernel, by decide +kernel, gone, back, fun same => ?_⟩
  have shown := (same made.system 2 (.request .start trivial)).2
  obtain ⟨node, found⟩ := ByteMap.contains_eq_true_iff.1 back
  have there : (again.system.tree.map Inode.forgetAccess).find? (ascii "/a/b") =
      some node.forgetAccess := by
    rw [ByteMap.find?_map, found]
    rfl
  rw [shown, ByteMap.find?_map, Option.map_eq_some_iff] at there
  obtain ⟨node', found', -⟩ := there
  rw [ByteMap.contains_eq_true_iff.2 ⟨node', found'⟩] at gone
  cases gone

end VirtualShell
