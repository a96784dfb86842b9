import VirtualShell.Fault
import VirtualShell.Json.Reader
import VirtualShell.Store.Batch
import VirtualShell.Trace
import VirtualShell.Tree.Record

/-!
# Stores

Where the records of a tree are kept: in memory, or in a JSON document on the host that every
commit replaces as a whole. A `Volume` is a store with the disk under it.

* `Volume.load` reads every record; what is no document of the known version is a fault.
* `Volume.commit` takes a batch or fails; a failure leaves the records as they were
  (`store_commit_of_error`).
-/

namespace VirtualShell

/-- A store with the records it holds. -/
inductive Store
  | memory (records : Records)
  | document (path : Bytes) (records : Records)

namespace Store

def records : Store → Records
  | memory records | document _ records => records

def withRecords (store : Store) (records : Records) : Store :=
  match store with
  | memory _ => memory records
  | document path _ => document path records

/-- A store of the same kind and place that has read nothing yet. -/
def fresh (store : Store) : Store := store.withRecords ∅

/-- What kind of store it is, and where. -/
def describe : Store → Bytes
  | memory _ => ascii "memory"
  | document path _ => ascii "json:" ++ path

/-! ## Documents -/

/-- The version of the document that can be read. -/
def version : Int := 1

/-- The document of the records. -/
def documentOf (records : Records) : Json :=
  Json.ofFields [
    (ascii "version", .integer version),
    (ascii "inodes", .array (records.values.map Inode.toJson))]

/-- The records as the text of a file; a path that is no UTF-8 cannot be written. -/
def writeDocument? (records : Records) : Option Bytes :=
  let json := documentOf records
  if json.writable then some (json.renderIndented ++ [Ascii.newline]) else none

/-- Reads the records of a document in their order. -/
def readDocument (path text : Bytes) : Except StoreFault (List Inode) :=
  let corrupt (e : RecordError) : StoreFault := .corrupt path e.message
  match Json.read? text with
  | none => .error (corrupt .malformed)
  | some json => do
    let found ← (Inode.readField (json.fieldOr "version" 0 Json.asInt32)).mapError corrupt
    if found ≠ version then throw (.unsupportedVersion path found)
    let inodes ← (Inode.readField (json.field "inodes")).mapError corrupt
    (inodes.items.mapM Inode.ofJson).mapError corrupt

end Store

/-! ## Volumes -/

/-- What stands in the way of a commit. -/
inductive Obstacle
  /-- The store refuses it. -/
  | refusal (reason : Bytes)
  /-- The host fails, if it is asked for anything. -/
  | trouble (trouble : Trouble)
  deriving DecidableEq

/-- A store and the host's files. -/
structure Volume where
  store : Store
  disk : Disk := .empty
  /-- While there is one, every commit comes up against it. -/
  obstacle : Option Obstacle := none
  /-- The process that writes, by its number. -/
  process : Nat := 1

/-- What an operation on a volume gives, the volume after it and what there is to tell. -/
structure VolumeStep (α : Type) where
  result : Outcome α
  volume : Volume
  events : List TraceEvent := []

namespace Volume

/-- Reads the document at a path. What cannot be read leaves the store without records. -/
def loadDocument (v : Volume) (path : Bytes) : VolumeStep (List Inode) :=
  let unread : Volume := { v with store := .document path ∅ }
  if !v.disk.contains path then ⟨.ok [], unread, [.storeMissing path]⟩
  else match v.disk.read path with
    | .error e => ⟨.error (.store (.host e)), unread, []⟩
    | .ok text =>
      match Store.readDocument path text with
      | .error fault => ⟨.error (.store fault), unread, []⟩
      | .ok inodes =>
        let records : Records := ByteMap.ofList (inodes.map fun node => (node.path, node))
        ⟨.ok inodes, { v with store := .document path records },
          [.storeLoaded inodes.length path]⟩

/-- Reads every record of the store. -/
def load (v : Volume) : VolumeStep (List Inode) :=
  match v.store with
  | .memory records => ⟨.ok records.values, v, []⟩
  | .document path _ => v.loadDocument path

/-- Makes the directory that the document is to stand in. -/
def prepareDirectory (disk : Disk) (path : Bytes) : Disk × Except StoreFault Unit :=
  let directory := Disk.directoryPart path
  if directory.isEmpty || disk.contains directory then (disk, .ok ())
  else
    let (disk, made) := disk.makeDirectories directory
    (disk, made.mapError fun _ => .noStoreDirectory)

/-- Why the store refuses what it is to take. -/
def refusal (v : Volume) : Option Bytes :=
  match v.obstacle with
  | some (.refusal reason) => some reason
  | _ => none

/-- What the host fails at. -/
def trouble (v : Volume) : Option Trouble :=
  match v.obstacle with
  | some (.trouble trouble) => some trouble
  | _ => none

/-- Replaces the document at a path by one that has the batch in it. -/
def commitDocument (v : Volume) (path : Bytes) (records : Records) (batch : Batch) :
    VolumeStep Unit :=
  match prepareDirectory v.disk path with
  | (disk, .error fault) => ⟨.error (.store fault), { v with disk }, []⟩
  | (disk, .ok ()) =>
    let next := batch.apply records
    match Store.writeDocument? next with
    | none => ⟨.error (.store (.notEncodable path)), { v with disk }, []⟩
    | some text =>
      match disk.replace v.process v.trouble path text with
      | (disk, .error e) => ⟨.error (.store (.host e)), { v with disk }, []⟩
      | (disk, .ok ()) =>
        ⟨.ok (), { v with disk, store := .document path next },
          [.storeCommitted batch.puts.length batch.erases.length path]⟩

/-- Takes a batch. -/
def commit (v : Volume) (batch : Batch) : VolumeStep Unit :=
  match v.refusal with
  | some reason => ⟨.error (.store (.refused reason)), v, []⟩
  | none =>
    match v.store with
    | .memory records => ⟨.ok (), { v with store := .memory (batch.apply records) }, []⟩
    | .document path records =>
      if batch.isEmpty then ⟨.ok (), v, []⟩ else v.commitDocument path records batch

/-- A commit that fails leaves the store as it was. -/
theorem store_commit_of_error {v : Volume} {batch : Batch} {fault : Fault}
    (h : (v.commit batch).result = .error fault) : (v.commit batch).volume.store = v.store := by
  unfold commit at h ⊢
  cases hr : v.refusal with
  | some reason => rfl
  | none =>
    rw [hr] at h
    cases hs : v.store with
    | memory records => rw [hs] at h; simp at h
    | document path records =>
      rw [hs] at h
      dsimp only at h ⊢
      split at h
      · simp at h
      next ne =>
        rw [if_neg ne]
        unfold commitDocument at h ⊢
        split
        · exact hs
        next disk made =>
          rw [made] at h
          dsimp only at h ⊢
          split
          · exact hs
          next text written =>
            rw [written] at h
            dsimp only at h
            split
            · exact hs
            next disk' replaced =>
              rw [replaced] at h
              simp at h

end Volume

end VirtualShell
