import VirtualShell.Proofs.Load
import VirtualShell.Proofs.Tree.Landing

/-!
# The null device

In a tree that has just been seeded an empty file stands at `/dev/null`. Writing to it does nothing,
and it cannot be unlinked. What a rename, a copy or a recursive removal does to it is another matter
(`Edit.Unseats`): these may take the device away, or put something else in its place.

* `Edit.device_plan`: every other plan leaves the device where it is.
* `Edit.unseated_plan`: a plan that unseats the device leaves no empty file there.
* `hasNullDevice_iff_of_run`: so the device is there for as long as nothing unseats it.
-/

namespace VirtualShell

/-- A regular file without content. -/
def Inode.IsEmptyFile (node : Inode) : Prop := node.isFile = true ∧ node.content = []

theorem Inode.isEmptyFile_iff_of_body {node node' : Inode} (h : node.body = node'.body) :
    node.IsEmptyFile ↔ node'.IsEmptyFile := by
  rw [IsEmptyFile, IsEmptyFile, isFile, isFile, content, content, h]

namespace Tree

/-- Where the device stands. -/
def deviceDirectory : Bytes := ascii "/dev"

theorem canonical_nullDevice : Path.resolve nullDevice = nullDevice := by decide

theorem canonical_deviceDirectory : Path.resolve deviceDirectory = deviceDirectory := by decide

theorem parent_nullDevice : Path.parent nullDevice = deviceDirectory := by decide

theorem parent_deviceDirectory : Path.parent deviceDirectory = Path.root := by decide

theorem isWithin_deviceDirectory : Path.isWithin nullDevice deviceDirectory = true := by decide

/-- Two directories lie above the device. -/
theorem eq_of_isWithin_nullDevice {dir : Bytes} (hd : Path.Canonical dir)
    (within : Path.isWithin nullDevice dir = true) : dir = deviceDirectory ∨ dir = Path.root := by
  rcases (Path.isWithin_iff_parent canonical_nullDevice hd (by decide)).1 within with e | above
  · exact .inl (e.symm.trans parent_nullDevice)
  · rw [parent_nullDevice] at above
    exact .inr (Path.eq_root_of_isWithin canonical_deviceDirectory hd parent_deviceDirectory above)

/-- **The device is in its place**: an empty file, in a directory in the root. -/
structure Device (tree : Tree) : Prop where
  root : tree.IsDir Path.root
  directory : tree.IsDir deviceDirectory
  file : ∃ node, tree.find? nullDevice = some node ∧ node.IsEmptyFile

variable {tree : Tree}

namespace Device

variable (h : tree.Device)
include h

theorem isEmptyFile {node : Inode} (found : tree.find? nullDevice = some node) :
    node.IsEmptyFile := by
  obtain ⟨node', found', empty⟩ := h.file
  rw [found] at found'
  cases found'
  exact empty

theorem not_isDir : ¬ tree.IsDir nullDevice := by
  rintro ⟨node, found, dir⟩
  have file := (h.isEmptyFile found).1
  rw [Inode.isFile] at file
  rw [Inode.isDirectory] at dir
  simp_all

/-- What lies above the device is a directory. -/
theorem above {dir : Bytes} (hd : Path.Canonical dir)
    (within : Path.isWithin nullDevice dir = true) : tree.IsDir dir := by
  rcases eq_of_isWithin_nullDevice hd within with rfl | rfl
  · exact h.directory
  · exact h.root

/-- Such a directory is not empty. -/
theorem not_isWithin (keyed : tree.Keyed) {dir : Bytes} (hd : Path.Canonical dir)
    (alone : tree.hasChildren dir = false) : Path.isWithin nullDevice dir = false := by
  obtain ⟨node, found, -⟩ := h.file
  exact keyed.nothing_within hd alone found

/-- **A record that is put in place** of the device is an empty file. -/
theorem isEmptyFile_of_places {put : Inode} (places : tree.Places put)
    (same : put.path = nullDevice) : put.IsEmptyFile := by
  obtain ⟨node, found, empty⟩ := h.file
  cases places with
  | fresh none =>
    rw [same, found] at none
    cases none
  | below _ canonical none within =>
    exact absurd (h.above canonical (same ▸ within)) (not_isDir_of_none none)
  | renewed found' body =>
    rw [same] at found'
    exact (Inode.isEmptyFile_iff_of_body body).2 (h.isEmptyFile found')
  | written _ _ other => exact absurd same other

/-- The device stays if it is not removed, or put back, and what is put in its place is empty. -/
theorem apply {b : Batch} (root : IsDir (b.apply tree) Path.root)
    (directory : IsDir (b.apply tree) deviceDirectory)
    (kept : nullDevice ∈ b.erases → ∃ put ∈ b.puts, put.path = nullDevice)
    (puts : ∀ put ∈ b.puts, put.path = nullDevice → put.IsEmptyFile) :
    Device (b.apply tree) := by
  refine ⟨root, directory, ?_⟩
  rw [Batch.find?_apply]
  cases last : Batch.last? b.puts nullDevice with
  | some node =>
    obtain ⟨mem, same⟩ := Batch.last?_eq_some last
    exact ⟨node, rfl, puts node mem same⟩
  | none =>
    have free := Batch.last?_eq_none.1 last
    have there : nullDevice ∉ b.erases := fun gone =>
      let ⟨put, mem, same⟩ := kept gone
      free put mem same
    rw [Option.none_or, if_neg there]
    exact h.file

end Device

/-! ## What unseats the device -/

/-- A record at or below the one path would come to stand in the place of the device, put down at
the other, and is no empty file. -/
def Covers (tree : Tree) (old new : Bytes) : Prop :=
  ∃ key node, tree.find? key = some node ∧ (key = old ∨ Path.isWithin key old = true) ∧
    Path.rekey key old new = nullDevice ∧ ¬ node.IsEmptyFile

theorem Carried.isEmptyFile {old new : Bytes} {put : Inode} (carried : tree.Carried old new put)
    (same : put.path = nullDevice) (apart : ¬ tree.Covers old new) : put.IsEmptyFile := by
  obtain ⟨key, node, found, within, place, body⟩ := carried
  rw [Inode.isEmptyFile_iff_of_body body]
  exact Classical.not_not.1 fun some => apart ⟨key, node, found, within, place ▸ same, some⟩

end Tree

namespace Edit

open VirtualShell.Tree

/-- **What unseats the device**: to remove a directory above it, to rename it or a directory above
it, and to rename or copy something else to its place. -/
def Unseats (tree : Tree) : Edit → Prop
  | removeDirectory path _ =>
    ∃ node, tree.lstat path = .ok node ∧ Path.isWithin nullDevice node.path = true
  | rename source target =>
    ∃ node new, tree.lstat source = .ok node ∧ tree.entryPath target = .ok new ∧
      new ≠ node.path ∧ (nullDevice = node.path ∨ Path.isWithin nullDevice node.path = true ∨
        tree.Covers node.path new)
  | copy source target _ =>
    ∃ node new, tree.stat source = .ok node ∧ tree.copyTarget node.path target = .ok new ∧
      tree.Covers node.path new
  | _ => False

end Edit

namespace Tree.Device

variable {tree : Tree} {now : Int} {path source target : Bytes} {recursive : Bool}
  {change : Change} (device : tree.Device) (h : tree.Keyed)

/-! ## Plans that leave it -/

/-- A batch that only puts records in place leaves the device. -/
theorem adds (device : tree.Device) {b : Batch} (adds : tree.Adds b) : Device (b.apply tree) := by
  have stays : ∀ dir, tree.IsDir dir → IsDir (b.apply tree) dir := fun dir there =>
    there.apply (by rw [adds.erases]; exact List.not_mem_nil) fun put mem same =>
      (adds.places put mem).isDirectory (same ▸ there)
  refine device.apply (stays _ device.root) (stays _ device.directory) (fun gone => ?_)
    fun put mem => device.isEmptyFile_of_places (adds.places put mem)
  rw [adds.erases] at gone
  cases gone

/-- A rename that leaves the device leaves its directory. -/
theorem deviceDirectory_not_mem_moveBatch (device : tree.Device) (h : tree.Keyed) {node : Inode}
    {new : Bytes} (found : tree.find? node.path = some node) (ne : node.path ≠ Path.root)
    (hn : Path.Canonical new) (fits : tree.GivesWay node new)
    (out : ¬ Path.isWithin nullDevice node.path = true) :
    deviceDirectory ∉ (tree.moveBatch now node new).erases := by
  rw [h.mem_moveBatch_erases_iff found]
  rintro (⟨rfl, -⟩ | e | ⟨_, -, within⟩)
  · -- a directory that gives way is empty
    obtain ⟨existing, taken, isDir⟩ := device.directory
    have := device.not_isWithin h hn ((fits existing taken).2 isDir)
    rw [isWithin_deviceDirectory] at this
    cases this
  · exact out (e ▸ isWithin_deviceDirectory)
  · exact ne (Path.eq_root_of_isWithin canonical_deviceDirectory (h _ _ found).1
      parent_deviceDirectory within)

section
variable (root : IsDir (change.batch.apply tree) Path.root)
  (directory : deviceDirectory ∉ change.batch.erases →
    IsDir (change.batch.apply tree) deviceDirectory)
include device h root directory

theorem unlink (hp : tree.planUnlink path = .ok change) : Device (change.batch.apply tree) := by
  obtain ⟨node, lstat, notDir, other, rfl⟩ := planUnlink_eq_ok_iff.1 hp
  obtain ⟨_, -, found⟩ := lstat_eq_ok_iff.1 lstat
  obtain ⟨-, rfl⟩ := h _ _ found
  refine device.apply root (directory fun mem => ?_) (fun mem => ?_)
    fun put mem => absurd mem List.not_mem_nil
  · rw [← List.mem_singleton.1 mem] at found
    rw [device.directory.of_find? found] at notDir
    cases notDir
  · exact absurd (List.mem_singleton.1 mem).symm other

theorem removeDirectory (hp : tree.planRemoveDirectory path recursive = .ok change)
    (spares : ¬ Edit.Unseats tree (.removeDirectory path recursive)) :
    Device (change.batch.apply tree) := by
  obtain ⟨node, lstat, found, ne, dir, erased⟩ := h.removed_within hp
  have out : ¬ Path.isWithin nullDevice node.path = true := fun within =>
    spares ⟨node, lstat, within⟩
  refine device.apply root (directory fun mem => ?_) (fun mem => ?_) fun put mem => ?_
  · rcases erased _ mem with e | within
    · exact out (e ▸ isWithin_deviceDirectory)
    · exact ne (Path.eq_root_of_isWithin canonical_deviceDirectory (h _ _ found).1
        parent_deviceDirectory within)
  · rcases erased _ mem with e | within
    · exact absurd ⟨node, e ▸ found, dir⟩ device.not_isDir
    · exact absurd within out
  · rw [puts_planRemoveDirectory hp] at mem
    cases mem

theorem rename (hp : tree.planRename now source target = .ok change)
    (spares : ¬ Edit.Unseats tree (.rename source target)) :
    Device (change.batch.apply tree) := by
  obtain ⟨node, lstat, ne, new, entry, ⟨-, rfl⟩ | ⟨other, -, parent, fits, batch⟩⟩ :=
    planRename_eq_ok hp
  · exact device
  obtain ⟨_, -, found⟩ := lstat_eq_ok_iff.1 lstat
  obtain ⟨canonical, rfl⟩ := h _ _ found
  have hn := canonical_of_entryPath entry
  have ne' := h.ne_root_of_rename found ne parent fits
  have out : ¬ (nullDevice = node.path ∨ Path.isWithin nullDevice node.path = true ∨
      tree.Covers node.path new) := fun unseats => spares ⟨node, new, lstat, entry, other, unseats⟩
  refine device.apply root (directory fun mem => ?_) (fun mem => ?_) fun put mem same => ?_
  · rw [batch] at mem
    refine device.deviceDirectory_not_mem_moveBatch h found ne hn fits (fun within => ?_) mem
    exact out (.inr (.inl within))
  · rw [batch] at mem ⊢
    rcases (h.mem_moveBatch_erases_iff found).1 mem with ⟨e, -⟩ | e | ⟨_, -, within⟩
    · exact ⟨_, List.mem_cons_self, e.symm⟩
    · exact absurd (.inl e) out
    · exact absurd (.inr (.inl within)) out
  · rw [batch] at mem
    exact (h.carried_of_moveBatch found ne hn ne' mem).1.isEmptyFile same fun covers =>
      out (.inr (.inr covers))

theorem copy (hp : tree.planCopy now source target recursive = .ok change)
    (spares : ¬ Edit.Unseats tree (.copy source target recursive)) :
    Device (change.batch.apply tree) := by
  obtain ⟨node, stat, -, new, goes, other, out, parent, -, rfl⟩ := planCopy_eq_ok hp
  obtain ⟨_, -, found⟩ := stat_eq_ok_iff.1 stat
  obtain ⟨canonical, rfl⟩ := h _ _ found
  obtain ⟨ne, ne', hn⟩ := ne_root_of_copy canonical goes other out parent
  refine device.apply root (directory List.not_mem_nil) (fun gone => absurd gone List.not_mem_nil)
    fun put mem same => ?_
  exact (h.carried_of_copyBatch found ne hn ne' mem).1.isEmptyFile same fun covers =>
    spares ⟨node, new, stat, goes, covers⟩

end

end Tree.Device

open VirtualShell.Tree

/-- **A plan that does not unseat the device** leaves it in its place. -/
theorem Edit.device_plan {tree : Tree} {now : Int} {edit : Edit} {change : Change}
    (h : tree.Keyed) (device : tree.Device) (hp : edit.plan tree now = .ok change)
    (spares : ¬ edit.Unseats tree) : Device (change.batch.apply tree) := by
  have root := isDir_plan h hp Path.canonical_root rfl device.root
    (root_not_mem_erases h device.root hp)
  have directory := isDir_plan h hp canonical_deviceDirectory parent_deviceDirectory
    device.directory
  cases edit with
  | write => exact device.adds (planWrite_adds h hp)
  | touch => exact device.adds (planTouch_adds h hp)
  | setMode => exact device.adds (planSetMode_adds h hp)
  | link => exact device.adds (planLink_adds hp)
  | makeDirectory path recursive owner =>
    cases recursive with
    | false => exact device.adds (planDirectory_adds hp)
    | true => exact device.adds (planDirectories_adds hp)
  | unlink => exact device.unlink h root directory hp
  | removeDirectory => exact device.removeDirectory h root directory hp spares
  | rename => exact device.rename h root directory hp spares
  | copy => exact device.copy h root directory hp spares

/-! ## Plans that unseat it -/

/-- No empty file is at the place of the device: nothing is there, or what can be read there is
something else. -/
def Tree.Unseated (tree : Tree) : Prop :=
  tree.find? nullDevice = none ∨
    tree.IsDir deviceDirectory ∧ ∃ node, tree.find? nullDevice = some node ∧ ¬ node.IsEmptyFile

/-- What is put down in the place of the device is found there. -/
theorem Tree.Keyed.unseated_of_covers {tree : Tree} (h : tree.Keyed) {b : Batch}
    {old new : Bytes} (ho : Path.Canonical old) (directory : IsDir (b.apply tree) deviceDirectory)
    (carried : ∀ put ∈ b.puts, tree.Carried old new put) (covers : tree.Covers old new)
    (all : ∀ key node, tree.find? key = some node → key = old ∨ Path.isWithin key old = true →
      Path.rekey key old new = nullDevice → ∃ put ∈ b.puts, put.path = Path.rekey key old new) :
    Unseated (b.apply tree) := by
  obtain ⟨key, node, found, within, place, some⟩ := covers
  obtain ⟨put, mem, lands⟩ := all key node found within place
  obtain ⟨last, there, body⟩ := h.find?_apply_of_carried ho carried found within mem lands
  rw [lands, place] at there
  refine .inr ⟨directory, last, there, fun empty => some ?_⟩
  exact (Inode.isEmptyFile_iff_of_body body).1 empty

namespace Tree.Device

variable {tree : Tree} {now : Int} {path source target : Bytes} {recursive : Bool}
  {change : Change} (device : tree.Device) (h : tree.Keyed)

/-- What is removed and not put back is gone. -/
theorem find?_apply_eq_none {b : Batch} (gone : nullDevice ∈ b.erases)
    (free : ∀ put ∈ b.puts, put.path ≠ nullDevice) : (b.apply tree).find? nullDevice = none := by
  rw [Batch.find?_apply, Batch.last?_eq_none.2 free, Option.none_or, if_pos gone]

include device h

theorem unseated_removeDirectory (hp : tree.planRemoveDirectory path recursive = .ok change)
    (unseats : Edit.Unseats tree (.removeDirectory path recursive)) :
    (change.batch.apply tree).find? nullDevice = none := by
  obtain ⟨node, lstat, -, dir, cases⟩ := planRemoveDirectory_eq_ok_iff.1 hp
  obtain ⟨_, lstat', within⟩ := unseats
  rw [lstat] at lstat'
  cases lstat'
  obtain ⟨_, -, found⟩ := lstat_eq_ok_iff.1 lstat
  obtain ⟨canonical, rfl⟩ := h _ _ found
  refine find?_apply_eq_none ?_ fun put mem => ?_
  · obtain ⟨alone, -⟩ | ⟨-, -, rfl⟩ := cases
    · rw [device.not_isWithin h canonical alone] at within
      cases within
    · obtain ⟨file, there, -⟩ := device.file
      refine List.mem_append_left _ (List.mem_reverse.2 ?_)
      exact (h.mem_descendants_keys_iff canonical).2 ⟨file, there, within⟩
  · rw [puts_planRemoveDirectory hp] at mem
    cases mem

/-- Nothing is put at or below where nothing but the device could be. -/
theorem ne_nullDevice_of_rename {node put : Inode} {new : Bytes} (hn : Path.Canonical new)
    (ne' : new ≠ Path.root) (other : new ≠ node.path)
    (out : Path.isWithin new node.path = false) (fits : tree.GivesWay node new)
    (takes : nullDevice = node.path ∨ Path.isWithin nullDevice node.path = true)
    (lands : put.path = new ∨ Path.isWithin put.path new = true) : put.path ≠ nullDevice := by
  intro same
  rw [same] at lands
  rcases lands with rfl | within
  · rcases takes with e | within
    · exact other e
    · rw [within] at out
      cases out
  · rcases eq_of_isWithin_nullDevice hn within with rfl | rfl
    · obtain ⟨existing, taken, isDir⟩ := device.directory
      rw [device.not_isWithin h hn ((fits existing taken).2 isDir)] at within
      cases within
    · exact ne' rfl

theorem unseated_rename (hp : tree.planRename now source target = .ok change)
    (unseats : Edit.Unseats tree (.rename source target)) :
    Unseated (change.batch.apply tree) := by
  have stays := @Edit.isDir_plan tree now (.rename source target) change h hp _
    canonical_deviceDirectory parent_deviceDirectory device.directory
  obtain ⟨node, lstat, ne, new, entry, how⟩ := planRename_eq_ok hp
  obtain ⟨_, _, lstat', entry', moves, unseats⟩ := unseats
  rw [lstat] at lstat'
  cases lstat'
  rw [entry] at entry'
  cases entry'
  obtain ⟨same, -⟩ | ⟨other, out, parent, fits, batch⟩ := how
  · exact absurd same moves
  obtain ⟨_, -, found⟩ := lstat_eq_ok_iff.1 lstat
  obtain ⟨canonical, rfl⟩ := h _ _ found
  have hn := canonical_of_entryPath entry
  have ne' := h.ne_root_of_rename found ne parent fits
  have puts := fun put => @Keyed.carried_of_moveBatch tree now h node new found ne hn ne' put
  rw [batch] at stays ⊢
  by_cases takes : nullDevice = node.path ∨ Path.isWithin nullDevice node.path = true
  · -- the device goes with what is moved, and nothing comes in its place
    obtain ⟨file, there, -⟩ := device.file
    refine .inl (find?_apply_eq_none ?_ fun put mem => ?_)
    · rw [h.mem_moveBatch_erases_iff found]
      exact .inr (takes.imp id fun within => ⟨file, there, within⟩)
    · exact device.ne_nullDevice_of_rename h hn ne' other out fits takes (puts put mem).2
  · obtain ⟨apart, out⟩ := not_or.1 takes
    have covers := (unseats.resolve_left apart).resolve_left out
    have directory := stays (device.deviceDirectory_not_mem_moveBatch h found ne hn fits out)
    exact h.unseated_of_covers canonical directory (fun put mem => (puts put mem).1) covers
      fun key below there within _ => h.exists_mem_moveBatch found there within

theorem unseated_copy (hp : tree.planCopy now source target recursive = .ok change)
    (unseats : Edit.Unseats tree (.copy source target recursive)) :
    Unseated (change.batch.apply tree) := by
  have stays := @Edit.isDir_plan tree now (.copy source target recursive) change h hp _
    canonical_deviceDirectory parent_deviceDirectory device.directory
  obtain ⟨node, stat, -, new, goes, other, out, parent, fits, rfl⟩ := planCopy_eq_ok hp
  obtain ⟨_, _, stat', goes', covers⟩ := unseats
  rw [stat] at stat'
  cases stat'
  rw [goes] at goes'
  cases goes'
  obtain ⟨_, -, found⟩ := stat_eq_ok_iff.1 stat
  obtain ⟨canonical, rfl⟩ := h _ _ found
  obtain ⟨ne, ne', hn⟩ := ne_root_of_copy canonical goes other out parent
  refine h.unseated_of_covers canonical (stays List.not_mem_nil)
    (fun put mem => (h.carried_of_copyBatch found ne hn ne' mem).1) covers
    fun key below there within place => h.exists_mem_copyBatch found there ?_
  rcases within with rfl | within
  · -- it is copied to the device itself, which is no directory
    rw [Path.rekey_self] at place
    refine .inl ⟨rfl, Bool.eq_false_iff.2 fun dir => device.not_isDir ?_⟩
    rw [← place]
    exact isDir_iff_any.2 dir
  · -- it is copied from below into a directory that is merged into another
    have inside := (Path.rekey_spec (h _ _ there).1 canonical hn ne ne' within).2.1
    rw [place] at inside
    obtain ⟨existing, taken, isDir⟩ := device.above hn inside
    exact .inr ⟨within, (fits existing taken).symm.trans isDir⟩

end Tree.Device

/-- **A plan that unseats the device** leaves no empty file in its place. -/
theorem Edit.unseated_plan {tree : Tree} {now : Int} {edit : Edit} {change : Change}
    (h : tree.Keyed) (device : tree.Device) (hp : edit.plan tree now = .ok change)
    (unseats : edit.Unseats tree) : Unseated (change.batch.apply tree) := by
  cases edit with
  | write | touch | setMode | link | makeDirectory | unlink => exact unseats.elim
  | removeDirectory => exact .inl (device.unseated_removeDirectory h hp unseats)
  | rename => exact device.unseated_rename h hp unseats
  | copy => exact device.unseated_copy h hp unseats

/-! ## Requests -/

/-- **The null device is there**: a regular file that reads as empty at all times. -/
structure FileSystem.HasNullDevice (fs : FileSystem) : Prop where
  present : ∃ node, fs.tree.find? nullDevice = some node ∧ node.isFile = true
  empty : ∀ now, (fs.read now nullDevice).result = .ok []

/-- The request unseats the device, and succeeds. -/
def Request.Unseats (fs : FileSystem) (request : Request) : Prop :=
  (∃ reply, (request.run fs).result = .ok reply) ∧
    ∃ edit, request.operation = .edit edit ∧ edit.Unseats fs.tree

section
variable {fs : FileSystem} {request : Request} {node : Inode}

theorem Inode.kind_of_isFile (h : node.isFile = true) :
    node.isDirectory = false ∧ node.isSymlink = false := by
  rw [isFile] at h
  rw [isDirectory, isSymlink]
  simp_all

/-- The path of the device leads to the file there. -/
theorem Tree.stat_nullDevice {tree : Tree} (directory : tree.IsDir deviceDirectory)
    (found : tree.find? nullDevice = some node) (file : node.isFile = true) :
    tree.stat nullDevice = .ok node := by
  obtain ⟨dir, there, isDir⟩ := directory
  have notLink : dir.isSymlink = false := by
    rw [Inode.isDirectory] at isDir
    rw [Inode.isSymlink]
    simp_all
  have first : Path.Proper (ascii "dev") := ⟨by decide, by decide, by decide, by decide⟩
  have second : Path.Proper (ascii "null") := ⟨by decide, by decide, by decide, by decide⟩
  have above : tree.Straight deviceDirectory :=
    straight_root.join first (fun ne => absurd rfl ne) there notLink
  have straight : tree.Straight nullDevice :=
    above.join second (fun _ => ⟨dir, there, isDir⟩) found (Inode.kind_of_isFile file).2
  exact stat_eq_ok_iff.2 ⟨nullDevice, realPath_of_straight straight, found⟩

theorem Tree.Device.hasNullDevice (device : fs.tree.Device) : fs.HasNullDevice := by
  obtain ⟨node, found, file, empty⟩ := device.file
  refine ⟨⟨node, found, file⟩, fun now => FileSystem.read_result_eq_ok_iff.2 ⟨node, ?_, ?_⟩⟩
  · exact stat_nullDevice device.directory found file
  · exact ⟨(Inode.kind_of_isFile file).1, empty⟩

theorem Tree.Unseated.not_hasNullDevice (h : fs.tree.Unseated) : ¬ fs.HasNullDevice := by
  rintro ⟨⟨node, found, file⟩, empty⟩
  rcases h with gone | ⟨directory, other, there, some⟩
  · rw [gone] at found
    cases found
  · rw [found] at there
    cases there
    obtain ⟨read, stat, -, content⟩ := FileSystem.read_result_eq_ok_iff.1 (empty 0)
    rw [stat_nullDevice directory found file] at stat
    cases stat
    exact some ⟨file, content⟩

/-- **A request that does not unseat the device** leaves it in its place. -/
theorem Request.device_run (h : fs.tree.Keyed) (device : fs.tree.Device)
    (spares : ¬ request.Unseats fs) : Device (request.run fs).system.tree := by
  obtain ⟨operation, now, obstacle⟩ := request
  cases operation with
  | edit edit =>
    cases result : (Request.run fs ⟨.edit edit, now, obstacle⟩).result with
    | ok reply =>
      obtain ⟨change, plan, after⟩ := tree_run_edit_of_ok result
      rw [after]
      exact edit.device_plan h device plan fun unseats =>
        spares ⟨⟨reply, result⟩, edit, rfl, unseats⟩
    | error fault =>
      rw [tree_run_edit_of_error result]
      exact device
  | read path =>
    refine tree_run Device device (fun place node found => ?_) nofun
    exact device.adds (h.adds_renewed found rfl rfl)
  | query => exact device

/-- **A request leaves the null device there** if and only if it does not unseat it. -/
theorem Request.hasNullDevice_iff (h : fs.tree.Keyed) (device : fs.tree.Device) :
    (request.run fs).system.HasNullDevice ↔ ¬ request.Unseats fs := by
  refine ⟨?_, fun spares => (device_run h device spares).hasNullDevice⟩
  rintro has ⟨⟨reply, result⟩, edit, op, unseats⟩
  obtain ⟨operation, now, obstacle⟩ := request
  obtain rfl : operation = .edit edit := op
  obtain ⟨change, plan, after⟩ := tree_run_edit_of_ok result
  refine Unseated.not_hasNullDevice ?_ has
  rw [after]
  exact edit.unseated_plan h device plan unseats

end

/-! ## Runs -/

/-- **The device is seeded.** -/
theorem FileSystem.standardTree_device (tree : Tree) (now : Int) :
    Device (({ puts := standardTree now } : Batch).apply tree) := by
  have found : ∀ path node, Batch.last? (standardTree now) path = some node →
      (({ puts := standardTree now } : Batch).apply tree).find? path = some node := by
    intro path node last
    rw [Batch.find?_apply, last, Option.some_or]
  exact ⟨⟨_, found Path.root _ rfl, rfl⟩, ⟨_, found deviceDirectory _ rfl, rfl⟩,
    ⟨_, found nullDevice _ rfl, rfl, rfl⟩⟩

/-- **The null device stays for as long as nothing unseats it.** Whatever store without a root the
file system was opened and seeded over, and whatever has been asked of it since that did not unseat
the device: the device is there, and it is there after the next request too, if and only if that
does not unseat it. -/
theorem hasNullDevice_iff_of_run {origin fs : FileSystem} {now : Int}
    (opens : (origin.load now).result = .ok ())
    (rootless : ∀ inodes, origin.volume.load.result = .ok inodes → ∀ node ∈ inodes,
      Path.resolve node.path ≠ Path.root)
    (run : Run (fun fs request => ¬ request.Unseats fs) (origin.load now).system fs) :
    fs.HasNullDevice ∧
      ∀ request : Request,
        (request.run fs).system.HasNullDevice ↔ ¬ request.Unseats fs := by
  have seeded : (origin.load now).system.tree.Keyed ∧ (origin.load now).system.tree.Device := by
    obtain ⟨inodes, loaded, ⟨⟨node, there⟩, -⟩ | ⟨none, e⟩⟩ := FileSystem.load_cases opens
    all_goals have keyed := FileSystem.index_keyed inodes
    · rw [(FileSystem.pruning_prune keyed).root] at there
      obtain ⟨stored, mem, root, -⟩ := FileSystem.find?_index there
      exact absurd root.symm (rootless inodes loaded stored mem)
    · have empty := FileSystem.prune_eq_none keyed none
      rw [e]
      exact ⟨(FileSystem.standardTree_sound empty now).keyed,
        FileSystem.standardTree_device _ now⟩
  obtain ⟨keyed, device⟩ : fs.tree.Keyed ∧ fs.tree.Device :=
    run.invariant (fun fs => fs.tree.Keyed ∧ fs.tree.Device) seeded fun _ _ h spares =>
      ⟨Request.keyed_run h.1, Request.device_run h.1 h.2 spares⟩
  exact ⟨device.hasNullDevice, fun request => Request.hasNullDevice_iff keyed device⟩

/-- A new file system over memory. -/
def newlySeeded : FileSystem := (FileSystem.load { volume := { store := .memory ∅ } } 0).system

/-- What is written to the device is gone, and it cannot be removed. -/
theorem hasNullDevice_of_write :
    let first := (Request.run newlySeeded
      ⟨.edit (.write nullDevice (ascii "gone")), 1, none⟩).system
    let second := (Request.run first ⟨.edit (.unlink nullDevice), 2, none⟩).system
    second.HasNullDevice := by
  refine (@hasNullDevice_iff_of_run { volume := { store := .memory ∅ } } _ 0 rfl ?_
    (.request (.request .start ?_) ?_)).1
  · rintro inodes ⟨⟩ node mem
    cases mem
  · rintro ⟨-, _, ⟨⟩, unseats⟩
    exact unseats
  · rintro ⟨-, _, ⟨⟩, unseats⟩
    exact unseats

/-- **A copy to the device takes its place**: of the name of the host, it has what was copied for
its content from then on. -/
theorem not_hasNullDevice_of_copy :
    let request : Request := ⟨.edit (.copy (ascii "/etc/hostname") nullDevice), 1, none⟩
    let step := request.run newlySeeded
    step.result = .ok .done ∧ (step.system.read 2 nullDevice).result = .ok (ascii "vsh\n") ∧
      ¬ ∀ fs, Run (fun _ _ => True) newlySeeded fs → fs.HasNullDevice := by
  intro request step
  have read : (step.system.read 2 nullDevice).result = .ok (ascii "vsh\n") := rfl
  refine ⟨rfl, read, fun stays => ?_⟩
  have empty := (stays step.system (.request .start trivial)).empty 2
  rw [read] at empty
  cases empty

end VirtualShell
