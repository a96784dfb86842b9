import VirtualShell.Proofs.Opening

/-!
# Loading that fails

A file system over a document that is in use may be loaded again, and loading may fail: the document
cannot be read, or it has no root and the standard tree cannot be committed. `load_of_error` says
what is then left of the tree and of the records of the store.

* A document that cannot be read leaves the tree, and no records.
* A document without a root leaves its own records, and no tree.

So something is lost unless it was not there before, and the next commit that succeeds writes what
is left (`isStored_commit_of_ok`). Where nothing is lost is part of `load_of_error`, and
`not_load_keeps` has an example of each loss.
-/

namespace VirtualShell

theorem ByteMap.eq_empty_of_find? {β : Type} {m : ByteMap β} (h : ∀ key, m.find? key = none) :
    m = ∅ := by
  refine eq_of_entries (List.eq_nil_iff_forall_not_mem.2 fun e mem => ?_)
  have found := find?_of_mem mem
  rw [h] at found
  cases found

namespace Volume

variable {v : Volume} {path : Bytes} {records : Records} {batch : Batch}

/-- **What loading leaves in a store over a document**: the records that have been read, or none. -/
theorem store_load_of_document (store : v.store = .document path records) :
    (∃ fault, v.load.result = .error fault ∧ v.load.volume.store = .document path ∅) ∨
      ∃ inodes, v.load.result = .ok inodes ∧
        v.load.volume.store = .document path (recordsOf inodes) := by
  unfold load
  rw [store]
  dsimp only
  unfold loadDocument
  dsimp only
  split
  · exact .inr ⟨[], rfl, rfl⟩
  · split
    · exact .inl ⟨_, rfl, rfl⟩
    · split
      · exact .inl ⟨_, rfl, rfl⟩
      next inodes _ => exact .inr ⟨inodes, rfl, rfl⟩

/-- A commit that a store over a document takes leaves the document of its records with the batch
in them. -/
theorem isStored_commit_of_ok (store : v.store = .document path records)
    (some : batch.isEmpty = false) (taken : (v.commit batch).result = .ok ()) :
    IsStored (v.commit batch).volume.disk path (batch.apply records) := by
  cases free : v.refusal with
  | some reason =>
    unfold commit at taken
    rw [free] at taken
    cases taken
  | none =>
    rw [commit_of_document store free some] at taken ⊢
    exact isStored_of_ok taken

end Volume

namespace FileSystem

variable {fs : FileSystem} {now : Int} {path : Bytes} {records : Records} {fault : Fault}

/-- Where the store cannot be read, the tree stays. -/
theorem load_of_unread (unread : fs.volume.load.result = .error fault) :
    (fs.load now).system = { fs with volume := fs.volume.load.volume } := by
  unfold load
  dsimp only
  rw [unread]

/-- Where the records can be read and loading fails, they have no root, and the tree is gone. -/
theorem load_of_unseeded {inodes : List Inode} (loaded : fs.volume.load.result = .ok inodes)
    (fails : (fs.load now).result = .error fault) :
    (fs.load now).system.tree = ∅ ∧
      (fs.load now).system.volume.store = fs.volume.load.volume.store := by
  have keyed := index_keyed inodes
  have rootless : (prune (index inodes)).1.find? Path.root = none := by
    refine Option.eq_none_iff_forall_ne_some.2 fun root there => ?_
    rw [(load_of_root now loaded there).1] at fails
    cases fails
  have bare : (prune (index inodes)).1 = ∅ :=
    ByteMap.eq_empty_of_find? (prune_eq_none keyed rootless)
  have seeds : (fs.load now).result = (FileSystem.seed ⟨∅, fs.volume.load.volume⟩ now).result ∧
      (fs.load now).system = (FileSystem.seed ⟨∅, fs.volume.load.volume⟩ now).system := by
    have none : (∅ : Tree).contains Path.root = false := rfl
    unfold load
    dsimp only
    rw [loaded]
    dsimp only
    rw [bare, none, if_neg nofun]
    exact ⟨rfl, rfl⟩
  obtain ⟨result, system⟩ := FileSystem.seed_eq ⟨∅, fs.volume.load.volume⟩ now
  have refused := (seeds.1.trans result).symm.trans fails
  have some : ({ puts := standardTree now } : Batch).isEmpty = false := rfl
  obtain ⟨asked, volume⟩ := FileSystem.commit_of_some ⟨∅, fs.volume.load.volume⟩ some
  rw [seeds.2, system]
  refine ⟨tree_commit_of_error refused, ?_⟩
  rw [volume]
  exact Volume.store_commit_of_error (asked.symm.trans refused)

/-- **Loading that fails** leaves the tree and no records, where the document cannot be read, and
the records of the document and no tree, where it has no root. Nothing is lost exactly if what is
not left was not there before: no records in the one case, no tree and just the records of the
document in the other. The next commit that succeeds writes what is left, with its batch in it. -/
theorem load_of_error (store : fs.volume.store = .document path records)
    (fails : (fs.load now).result = .error fault) :
    ∃ left, (fs.load now).system.volume.store = .document path left ∧
      ((∃ fault, fs.volume.load.result = .error fault) ∧
          left = ∅ ∧ (fs.load now).system.tree = fs.tree ∨
        ∃ inodes, fs.volume.load.result = .ok inodes ∧
          left = recordsOf inodes ∧ (fs.load now).system.tree = ∅) ∧
      ((fs.load now).system.tree = fs.tree ∧ left = records ↔
        (∃ fault, fs.volume.load.result = .error fault) ∧ records = ∅ ∨
          ∃ inodes, fs.volume.load.result = .ok inodes ∧ fs.tree = ∅ ∧
            records = recordsOf inodes) ∧
      ∀ (obstacle : Option Obstacle) (batch : Batch), batch.isEmpty = false →
        (((fs.load now).system.facing obstacle).commit batch).result = .ok () →
          IsStored (((fs.load now).system.facing obstacle).commit batch).system.volume.disk path
            (batch.apply left) := by
  have writes : ∀ left, (fs.load now).system.volume.store = .document path left →
      ∀ (obstacle : Option Obstacle) (batch : Batch), batch.isEmpty = false →
        (((fs.load now).system.facing obstacle).commit batch).result = .ok () →
          IsStored (((fs.load now).system.facing obstacle).commit batch).system.volume.disk path
            (batch.apply left) := by
    intro left kept obstacle batch some taken
    obtain ⟨asked, volume⟩ := ((fs.load now).system.facing obstacle).commit_of_some some
    rw [volume]
    exact Volume.isStored_commit_of_ok kept some (asked.symm.trans taken)
  rcases Volume.store_load_of_document store with ⟨fault, unread, kept⟩ | ⟨inodes, loaded, kept⟩
  · have system : (fs.load now).system = _ := load_of_unread unread
    have store' : (fs.load now).system.volume.store = .document path ∅ := by rw [system, kept]
    have tree : (fs.load now).system.tree = fs.tree := by rw [system]
    refine ⟨∅, store', .inl ⟨⟨fault, unread⟩, rfl, tree⟩, ?_, writes ∅ store'⟩
    constructor
    · rintro ⟨-, none⟩
      exact .inl ⟨⟨fault, unread⟩, none.symm⟩
    · rintro (⟨-, none⟩ | ⟨inodes, loaded, -⟩)
      · exact ⟨tree, none.symm⟩
      · rw [unread] at loaded
        cases loaded
  · obtain ⟨tree, same⟩ := load_of_unseeded loaded fails
    have store' := same.trans kept
    refine ⟨recordsOf inodes, store', .inr ⟨inodes, loaded, rfl, tree⟩, ?_, writes _ store'⟩
    constructor
    · rintro ⟨bare, read⟩
      exact .inr ⟨inodes, loaded, bare.symm.trans tree, read.symm⟩
    · rintro (⟨⟨fault, unread⟩, -⟩ | ⟨inodes', loaded', bare, read⟩)
      · rw [loaded] at unread
        cases unread
      · rw [loaded] at loaded'
        cases loaded'
        exact ⟨tree.trans bare.symm, read.symm⟩

/-- Two directories, over a document that has been damaged since they were written. -/
def damaged : FileSystem :=
  let records := recordsOf [.newDirectory Path.root .root 0, .newDirectory (ascii "/a") {} 0]
  { tree := records
    volume := {
      store := .document (ascii "vfs.json") records
      disk := Disk.empty.place (ascii "vfs.json") (ascii "\x7b") } }

/-- The tree stays; the records go, so that the next directory is written without them. -/
theorem load_of_error_damaged :
    let fs := damaged
    let loaded := (fs.load 1).system
    let made : Batch := .put (.newDirectory (ascii "/a/b") {} 2)
    (fs.load 1).result.toOption = none ∧ loaded.tree = fs.tree ∧
      loaded.tree.contains (ascii "/a") = true ∧
      loaded.volume.store = .document (ascii "vfs.json") ∅ ∧
      IsStored ((loaded.facing none).commit made).system.volume.disk (ascii "vfs.json")
        (made.apply ∅) := by
  intro fs loaded made
  have run : (fs.load 1).result.toOption = none ∧ fs.volume.load.result.toOption = none ∧
      fs.tree.contains (ascii "/a") = true ∧
      ((loaded.facing none).commit made).result.toOption = some () := by decide +kernel
  obtain ⟨failed, unread, there, taken⟩ := run
  obtain ⟨records, store⟩ : ∃ records, fs.volume.store = .document (ascii "vfs.json") records :=
    ⟨_, rfl⟩
  clear_value fs
  obtain ⟨fault, fails⟩ := Outcome.exists_of_toOption_eq_none failed
  obtain ⟨left, store', ⟨-, rfl, tree⟩ | ⟨inodes, read, -⟩, -, writes⟩ := load_of_error store fails
  · have written := writes none made rfl (Outcome.eq_ok_of_toOption taken)
    exact ⟨failed, tree, tree ▸ there, store', written⟩
  · rw [read] at unread
    cases unread

/-- A document with a root and a directory in it. -/
def twoDirectories : Bytes :=
  ascii "\x7b\"version\": 1, \"inodes\": [" ++
    ascii "\x7b\"path\": \"/\", \"type\": \"dir\"\x7d, " ++
    ascii "\x7b\"path\": \"/a\", \"type\": \"dir\"\x7d]\x7d"

/-- The document is exchanged for another from outside. -/
def exchanged (fs : FileSystem) (path text : Bytes) : FileSystem :=
  { fs with volume := { fs.volume with disk := fs.volume.disk.place path text } }

/-- **Loading that fails and loses**: when the document is damaged, the records, and the directory
that is made next is all that is written; when the document has no root and the store refuses the
standard tree, the tree. -/
theorem not_load_keeps :
    let opened := ((onDocument (ascii "vfs.json")
      (Disk.empty.place (ascii "vfs.json") twoDirectories)).load 0).system
    let unreadable := opened.exchanged (ascii "vfs.json") (ascii "\x7b")
    let kept := (unreadable.load 1).system
    let made := kept.makeDirectory 2 (ascii "/b")
    let rootless := (opened.exchanged (ascii "vfs.json")
      (ascii "\x7b\"version\": 1, \"inodes\": []\x7d")).facing (some (.refusal (ascii "disk full")))
    ((unreadable.load 1).result.toOption = none ∧
        opened.volume.store.records.keys = [Path.root, ascii "/a"] ∧
        kept.volume.store.records.keys = [] ∧ made.result.toOption = some () ∧
        made.system.tree.keys = [Path.root, ascii "/a", ascii "/b"] ∧
        made.system.volume.store.records.keys = [ascii "/b"]) ∧
      (rootless.load 1).result.toOption = none ∧
        rootless.tree.keys = [Path.root, ascii "/a"] ∧
        (rootless.load 1).system.tree.keys = [] := by
  decide +kernel

end FileSystem

end VirtualShell
