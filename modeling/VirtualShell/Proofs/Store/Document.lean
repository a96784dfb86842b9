import VirtualShell.Proofs.Host.Replace
import VirtualShell.Proofs.Tree.Record
import VirtualShell.Store.Basic

/-!
# Documents of records

Records under UTF-8 paths can always be written (`writeDocument?_eq_some`), and the document that is
written gives them back (`readDocument_of_write`), if they are `Storable`. So what a commit to a
document leaves on the disk (`commitDocument_cases`) is loaded by every store of the same place
(`load_of_isStored`).
-/

namespace VirtualShell

namespace Store

variable {records : Records}

/-- The version and the records of a document, by key. -/
theorem field?_documentOf :
    (documentOf records).field? "version" = some (.integer version) ∧
      (documentOf records).field? "inodes" =
        some (.array (records.values.map Inode.toJson)) :=
  ⟨Json.field?_ofFields.trans rfl, Json.field?_ofFields.trans rfl⟩

theorem plain_documentOf (h : ∀ node ∈ records.values, node.Timely) :
    Json.Plain (documentOf records) := by
  refine Json.plain_ofFields (List.forall_mem_cons.2 ⟨.integer (by decide), ?_⟩)
  refine List.forall_mem_singleton.2 (.array fun j mem => ?_)
  obtain ⟨node, listed, rfl⟩ := List.mem_map.1 mem
  exact Inode.plain_toJson (h node listed)

theorem writable_documentOf (h : ∀ node ∈ records.values, isValidUtf8 node.path = true) :
    (documentOf records).writable = true := by
  have keys : isValidUtf8 (ascii "version") = true ∧ isValidUtf8 (ascii "inodes") = true :=
    ⟨isValidUtf8_of_isAscii (by decide), isValidUtf8_of_isAscii (by decide)⟩
  have items : Json.itemsWritable (records.values.map Inode.toJson) = true := by
    refine Json.itemsWritable_iff.2 fun j mem => ?_
    obtain ⟨node, listed, rfl⟩ := List.mem_map.1 mem
    exact Inode.writable_toJson (h node listed)
  refine Json.writable_ofFields (List.forall_mem_cons.2 ⟨⟨keys.1, rfl⟩, ?_⟩)
  exact List.forall_mem_singleton.2 ⟨keys.2, items⟩

/-- **Records under UTF-8 paths** can be written. -/
theorem writeDocument?_eq_some (h : ∀ node ∈ records.values, isValidUtf8 node.path = true) :
    ∃ text, writeDocument? records = some text := by
  unfold writeDocument?
  exact ⟨_, if_pos (writable_documentOf h)⟩

/-! ## Reading -/

theorem mapM_ofJson {nodes : List Inode} (h : ∀ node ∈ nodes, node.Storable) :
    (nodes.map Inode.toJson).mapM Inode.ofJson = .ok nodes := by
  induction nodes with
  | nil => rfl
  | cons node nodes ih =>
    obtain ⟨first, others⟩ := List.forall_mem_cons.1 h
    rw [List.map_cons, List.mapM_cons, Inode.ofJson_toJson first, ih others]
    rfl

/-- **The document that is written** gives the records back. -/
theorem readDocument_of_write {text : Bytes} (h : ∀ node ∈ records.values, node.Storable)
    (written : writeDocument? records = some text) (path : Bytes) :
    readDocument path text = .ok records.values := by
  unfold writeDocument? at written
  dsimp only at written
  split at written
  next writable =>
    cases written
    obtain ⟨versionField, inodesField⟩ := @field?_documentOf records
    have found : Inode.readField ((documentOf records).fieldOr "version" 0 Json.asInt32) =
        .ok version := by
      rw [Json.fieldOr_of_field? versionField]
      rfl
    have inodes : Inode.readField ((documentOf records).field "inodes") =
        .ok (.array (records.values.map Inode.toJson)) := by
      rw [Json.field_of_field? inodesField]
      rfl
    rw [readDocument,
      Json.read?_renderIndented (plain_documentOf fun node mem => (h node mem).toTimely) writable]
    dsimp only
    rw [found, inodes]
    change ((records.values.map Inode.toJson).mapM Inode.ofJson).mapError _ = _
    rw [mapM_ofJson h]
    rfl
  · cases written

theorem storable_of_mapM {items : List Json} {nodes : List Inode}
    (h : items.mapM Inode.ofJson = .ok nodes) : ∀ node ∈ nodes, node.Storable := by
  induction items generalizing nodes with
  | nil =>
    cases h
    exact fun _ mem => absurd mem List.not_mem_nil
  | cons item items ih =>
    rw [List.mapM_cons] at h
    obtain ⟨node, first, h⟩ := Outcome.bind_eq_ok.1 h
    obtain ⟨others, rest, h⟩ := Outcome.bind_eq_ok.1 h
    cases h
    exact List.forall_mem_cons.2 ⟨Inode.storable_of_ofJson first, ih rest⟩

/-- The records of every document have times of sixty-four bits and the size of their content. -/
theorem storable_of_readDocument {path text : Bytes} {inodes : List Inode}
    (h : readDocument path text = .ok inodes) : ∀ node ∈ inodes, node.Storable := by
  unfold readDocument at h
  dsimp only at h
  split at h
  · cases h
  next json _ =>
    obtain ⟨found, -, h⟩ := Outcome.bind_eq_ok.1 h
    split at h
    · cases h
    · obtain ⟨stored, -, h⟩ := Outcome.bind_eq_ok.1 h
      cases read : stored.items.mapM Inode.ofJson with
      | error e =>
        rw [read] at h
        cases h
      | ok nodes =>
        rw [read] at h
        cases h
        exact storable_of_mapM read

end Store

/-! ## On the disk -/

/-- The host could not do what a store asked of it. -/
def Fault.isHost : Fault → Bool
  | store (.host _) | store .noStoreDirectory => true
  | _ => false

/-- The document at the path is the one of the records. -/
def IsStored (disk : Disk) (path : Bytes) (records : Records) : Prop :=
  ∃ text, Store.writeDocument? records = some text ∧ disk.read path = .ok text

namespace Volume

variable {v : Volume} {path : Bytes} {records : Records} {batch : Batch}

/-- **A document on the disk** is loaded, whatever the store has read before. -/
theorem load_of_isStored (h : IsStored v.disk path records)
    (storable : ∀ node ∈ records.values, node.Storable) {other : Records}
    (place : v.store = .document path other) : v.load.result = .ok records.values := by
  obtain ⟨text, written, read⟩ := h
  have there : v.disk.contains path = true := Disk.contains_of_read read
  unfold load loadDocument
  rw [place]
  dsimp only
  rw [there, read]
  dsimp only
  rw [Store.readDocument_of_write storable written]
  rfl

/-- What is read of a document has times of sixty-four bits and the size of its content. -/
theorem storable_of_loadDocument {inodes : List Inode}
    (h : (v.loadDocument path).result = .ok inodes) : ∀ node ∈ inodes, node.Storable := by
  unfold loadDocument at h
  dsimp only at h
  split at h
  · cases h
    exact List.forall_mem_nil _
  · split at h
    · cases h
    · split at h
      · cases h
      next read =>
        cases h
        exact Store.storable_of_readDocument read

/-- Records in memory have the size of their content. Those of a document have it when they are
read. -/
def Sized (v : Volume) : Prop :=
  ∀ records, v.store = .memory records → ∀ node ∈ records.values, node.Sized

theorem sized_of_empty (none : v.store.records = ∅) : v.Sized := by
  rintro records store node mem
  rw [store] at none
  obtain rfl : records = ∅ := none
  cases mem

theorem sized_of_document (store : v.store = .document path records) : v.Sized :=
  fun _ memory => absurd (store.symm.trans memory) nofun

theorem Sized.load (h : v.Sized) {inodes : List Inode} (loaded : v.load.result = .ok inodes) :
    ∀ node ∈ inodes, node.Sized := by
  unfold Volume.load at loaded
  cases store : v.store with
  | memory records =>
    rw [store] at loaded
    cases loaded
    exact h records store
  | document path records =>
    rw [store] at loaded
    exact fun node mem => (storable_of_loadDocument loaded node mem).toSized

theorem fault_of_prepareDirectory {disk : Disk} {fault : StoreFault}
    (h : (prepareDirectory disk path).2 = .error fault) : fault = .noStoreDirectory := by
  unfold prepareDirectory at h
  dsimp only at h
  split at h
  · cases h
  · dsimp only at h
    cases made : (disk.makeDirectories (Disk.directoryPart path)).2 with
    | ok u =>
      rw [made] at h
      cases h
    | error e =>
      rw [made] at h
      cases h
      rfl

/-- **A commit to a document** fails for the host alone, or leaves the document of the records
with the batch in them. -/
theorem commitDocument_cases
    (encodable : ∀ node ∈ (batch.apply records).values, isValidUtf8 node.path = true) :
    (∃ fault, (v.commitDocument path records batch).result = .error fault ∧
        fault.isHost = true) ∨
      (v.commitDocument path records batch).result = .ok () ∧
        (v.commitDocument path records batch).volume.store =
          .document path (batch.apply records) ∧
        IsStored (v.commitDocument path records batch).volume.disk path (batch.apply records) := by
  obtain ⟨text, written⟩ := Store.writeDocument?_eq_some encodable
  unfold commitDocument
  cases prepared : prepareDirectory v.disk path with
  | mk disk made =>
    cases made with
    | error fault =>
      have same := fault_of_prepareDirectory (congrArg Prod.snd prepared)
      exact .inl ⟨_, rfl, same ▸ rfl⟩
    | ok u =>
      dsimp only
      rw [written]
      dsimp only
      cases replaced : disk.replace v.process v.trouble path text with
      | mk disk' done =>
        cases done with
        | error e => exact .inl ⟨_, rfl, rfl⟩
        | ok u =>
          have read := Disk.read_of_replace (congrArg Prod.snd replaced)
          rw [replaced] at read
          exact .inr ⟨rfl, rfl, text, written, read⟩

/-- A commit that a document takes leaves the document of the records with the batch in them. -/
theorem isStored_of_ok (h : (v.commitDocument path records batch).result = .ok ()) :
    IsStored (v.commitDocument path records batch).volume.disk path (batch.apply records) := by
  unfold commitDocument at h ⊢
  split at h
  · cases h
  · dsimp only at h ⊢
    split at h
    · cases h
    next text written =>
      split at h
      · cases h
      next replaced =>
        have read := Disk.read_of_replace (congrArg Prod.snd replaced)
        rw [replaced] at read
        exact ⟨text, written, read⟩

/-! ## Commits that are not refused -/

theorem commit_of_memory (store : v.store = .memory records) (free : v.refusal = none) :
    (v.commit batch).result = .ok () ∧
      (v.commit batch).volume.store = .memory (batch.apply records) := by
  unfold commit
  rw [free, store]
  exact ⟨rfl, rfl⟩

theorem commit_of_document (store : v.store = .document path records) (free : v.refusal = none)
    (some : batch.isEmpty = false) : v.commit batch = v.commitDocument path records batch := by
  unfold commit
  rw [free, store]
  exact if_neg (Bool.eq_false_iff.1 some)

end Volume

end VirtualShell
