import Yfs.Extent.Contents
import Yfs.Hdfs.Lookup
import Yfs.Hdfs.Namespace

/-! Making files on a disk whose files own their blocks: what `create`, `mkdir` and `PBCreate` leave
there, as long as directories need no table of block ids and there is room. -/
namespace Yfs.Hdfs
open Yfs.Lib Yfs.Extent Yfs.Client

def bytesOf (d : Disk) (id : UInt64) : Str := ((fileOf d (maskId id)).map Prod.snd).getD []

theorem dirText_eq_fileOf (d : Disk) (id : UInt64) : dirText d id = (fileOf d (maskId id)).bind fun f =>
    if f.1 = FileType.dir.code.toUInt16 then some f.2 else none := by
  unfold dirText fileOf
  cases getInode d (maskId id) with
  | none => rfl
  | some ino => rfl

theorem getattr_size {d : Disk} {id : UInt64} {f : UInt16 × Str} (h : fileOf d (maskId id) = some f) :
    (Server.getattr id d).size.toNat = f.2.length := by
  obtain ⟨ino, hino, rfl⟩ := Option.map_eq_some_iff.1 h
  rw [Server.getattr, Extent.getattr, hino, fileBytes, Buf.length_toList]

section
variable {s : Store}

theorem Touched.fileOf_eq {d d' : Disk} (h : Touched d d') (hown : Owned d) : fileOf d' = fileOf d := by
  funext i
  unfold fileOf
  obtain ⟨t, ht⟩ := h.inode i
  cases hino : getInode d i with
  | none =>
    rw [ht, hino]
    rfl
  | some ino =>
    have hwf := hown.wellFormed i ino hino
    have hsame : ∀ b ∈ blockList d ino, SameBlock d d' b := fun b hb =>
      SameBlock.of_eq (h.block b (.inr (hwf.data b hb).1))
    have hbytes : fileBytes d' { ino with atime := t } = fileBytes d ino := hwf.fileBytes_congr hsame
    rw [ht, hino, Option.map_some, Option.map_some, Option.map_some, hbytes]

theorem Touched.nextInode_eq {d d' : Disk} (h : Touched d d') (hown : Owned d) :
    nextInode d' = nextInode d := by
  rw [nextInode_eq_find, nextInode_eq_find, h.fileOf_eq hown]

theorem serve_get (hown : Owned s.disk) (id : UInt64) :
    ∃ s', Store.serve (.get id) s = some ((.ok, bytesOf s.disk id), s') ∧ SameStore s s' := by
  have htouched := touched_get s.now hown id
  refine ⟨s.next (Server.get s.now id s.disk).2, ?_, htouched, rfl⟩
  have hget : Server.get s.now id s.disk = (some (bytesOf s.disk id), (Server.get s.now id s.disk).2) := by
    rw [bytesOf, fileOf]
    cases hino : getInode s.disk (maskId id) with
    | none =>
      simp only [Server.get, readFile, hino]
      rfl
    | some ino =>
      have hwf := hown.wellFormed _ ino hino
      rw [Server.get_eq s.now hino hwf.size_lt, hwf.content_eq]
      rfl
  simp only [Store.serve]
  rw [hget]

def entered (files : UInt32 → Option (UInt16 × Str)) (type : FileType) (n : UInt32) (parent : UInt64)
    (text : Str) (j : UInt32) : Option (UInt16 × Str) :=
  let files₁ := fun j => if j = n then some (type.code.toUInt16, []) else files j
  if j = maskId parent then (files₁ j).map fun f => (f.1, text) else files₁ j

def enteredText (d : Disk) (n : UInt32) (parent : UInt64) (name : Str) : Str :=
  addEntry (if maskId parent = n then [] else bytesOf d parent) (name, filename n.toUInt64)

theorem Touched.enteredText_eq {d d' : Disk} (h : Touched d d') (hown : Owned d) (n : UInt32)
    (parent : UInt64) (name : Str) : enteredText d' n parent name = enteredText d n parent name := by
  rw [enteredText, enteredText, bytesOf, bytesOf, h.fileOf_eq hown]

theorem grownBy_le {ino : Inode} {need : ℕ} (h : need ≤ nDirect) : grownBy ino need ≤ need := by
  unfold grownBy
  rw [if_neg (by omega)]
  omega

theorem serve_enter (hown : Owned s.disk) (type : FileType) (parent : UInt64) (name : Str) {n : ℕ}
    (hnext : nextInode s.disk = some n) {text : Str}
    (htext : enteredText s.disk (UInt32.ofNat n) parent name = text)
    (hsmall : blockCount text.length ≤ nDirect) (hroom : blockCount text.length ≤ s.disk.freeBlocks.length) :
    ∃ s₁ dirList s₂ s', Store.serve (.create type.code) s = some ((.ok, (UInt32.ofNat n).toUInt64), s₁) ∧
      Store.serve (.get parent) s₁ = some ((.ok, dirList), s₂) ∧
      addEntry dirList (name, filename (UInt32.ofNat n).toUInt64) = text ∧
      Store.serve (.put parent text) s₂ = some (.ok, s') ∧
      s'.held = s.held ∧ Owned s'.disk ∧
      fileOf s'.disk = entered (fileOf s.disk) type (UInt32.ofNat n) parent text ∧
      s.disk.freeBlocks.length ≤ s'.disk.freeBlocks.length + blockCount text.length := by
  obtain ⟨d₁, hd₁⟩ : ∃ d₁, (Server.create s.now type.code s.disk).2 = d₁ := ⟨_, rfl⟩
  have hcreate : Server.create s.now type.code s.disk = ((UInt32.ofNat n).toUInt64, d₁) := by
    rw [← hd₁, Server.create_eq s.now type.code hnext]
  have hown₁ : Owned d₁ := by
    rw [← hd₁]
    exact hown.create s.now type
  have hfiles₁ : ∀ j, fileOf d₁ j =
      if j = UInt32.ofNat n then some (type.code.toUInt16, []) else fileOf s.disk j := by
    intro j
    rw [← hd₁, fileOf_create hown s.now type hnext j]
  have hfree₁ : d₁.freeBlocks = s.disk.freeBlocks := by rw [← hd₁, freeBlocks_create s.now type.code hnext]
  have hbytes : bytesOf d₁ parent = if maskId parent = UInt32.ofNat n then [] else bytesOf s.disk parent := by
    unfold bytesOf
    rw [hfiles₁]
    split_ifs <;> rfl
  obtain ⟨s₂, hget, hsame⟩ := serve_get (s := s.next d₁) hown₁ parent
  have hown₂ := hsame.touched.owned hown₁
  have hfree₂ : s₂.disk.freeBlocks = s.disk.freeBlocks := by
    rw [hsame.touched.freeBlocks, Store.disk_next, hfree₁]
  have hroomy : Roomy s₂.disk parent text := by
    refine Roomy.of_direct hsmall fun ino _ => ?_
    rw [hfree₂]
    exact (grownBy_le hsmall).trans hroom
  obtain ⟨hown₃, hfiles₃, hfree₃⟩ := fileOf_put hown₂ s₂.now hroomy
  refine ⟨s.next d₁, _, s₂, s₂.next (Server.put s₂.now parent text s₂.disk), ?_, hget, ?_, rfl, ?_,
      hown₃, ?_, ?_⟩
  · rw [Store.serve, hcreate]
  · rw [Store.disk_next, hbytes]
    exact htext
  · rw [Store.held_next, hsame.held, Store.held_next]
  · funext j
    rw [Store.disk_next, hfiles₃, hsame.touched.fileOf_eq hown₁, Store.disk_next, hfiles₁]
    rfl
  · rw [Store.disk_next, ← hfree₂]
    exact hfree₃ hsmall

theorem run_nlockAdd (hown : Owned s.disk) (type : FileType) {parent : UInt64} {name : Str}
    (out : UInt64) {n : ℕ}
    (hnew : entryOf (dirText s.disk parent) name = none) (hnext : nextInode s.disk = some n) {text : Str}
    (htext : enteredText s.disk (UInt32.ofNat n) parent name = text)
    (hsmall : blockCount text.length ≤ nDirect) (hroom : blockCount text.length ≤ s.disk.freeBlocks.length) :
    ∃ s', (nlockAdd type parent name out).run Store.serve s = some ((.ok, (UInt32.ofNat n).toUInt64), s') ∧
      s'.held = s.held ∧ Owned s'.disk ∧
      fileOf s'.disk = entered (fileOf s.disk) type (UInt32.ofNat n) parent text ∧
      s.disk.freeBlocks.length ≤ s'.disk.freeBlocks.length + blockCount text.length := by
  obtain ⟨⟨r, found, ino⟩, s₁, hlookup, hsame, -, hnone⟩ := run_lookup s hown parent name false out
  have hfound : found = false := hnone hnew
  have hfiles := hsame.touched.fileOf_eq hown
  have hown₁ := hsame.touched.owned hown
  have hnext₁ := (hsame.touched.nextInode_eq hown).trans hnext
  have htext₁ := (hsame.touched.enteredText_eq hown _ parent name).trans htext
  have hfree₁ := hsame.touched.freeBlocks
  obtain ⟨s₂, dirList, s₃, s', hcreate, hget, hentry, hput, hheld, hown', hfiles', hfree'⟩ :=
    serve_enter hown₁ type parent name hnext₁ htext₁ hsmall (by rwa [hfree₁])
  refine ⟨s', ?_, hheld.trans hsame.held, hown', ?_, ?_⟩
  · unfold lookup at hlookup
    rw [nlockAdd, Prog.run_bind_some hlookup]
    dsimp only
    rw [hfound, if_neg Bool.false_ne_true, Prog.run_bind_some ((Prog.run_perform _ _).trans hcreate)]
    dsimp only
    rw [Prog.run_bind_some ((Prog.run_perform _ _).trans hget)]
    dsimp only
    rw [if_pos rfl, hentry, Prog.run_bind_some ((Prog.run_perform _ _).trans hput), Prog.run_pure]
  · rw [hfiles', hfiles]
  · rwa [hfree₁] at hfree'

theorem run_acquire {lid : UInt64} (hfree : s.held lid = false) :
    (perform (.acquire lid)).run Store.serve s =
      some ((), { s with held := Function.update s.held lid true }) := by
  rw [Prog.run_perform, Store.serve, if_neg (by rw [hfree]; exact Bool.false_ne_true)]

theorem run_locked {α : Type} {lid : UInt64} {p : M α} {a : α} {s' : Store} (hfree : s.held lid = false)
    (h : p.run Store.serve { s with held := Function.update s.held lid true } = some (a, s'))
    (hheld : s'.held = Function.update s.held lid true) :
    (locked lid p).run Store.serve s = some (a, { s' with held := s.held }) := by
  have hrelease : (perform (.release lid)).run Store.serve s' = some ((), { s' with held := s.held }) := by
    have hback : Function.update s'.held lid false = s.held := by
      rw [hheld, Function.update_idem, ← hfree, Function.update_eq_self]
    rw [Prog.run_perform, Store.serve, if_pos (by rw [hheld, Function.update_self]), hback]
  rw [locked, Prog.run_bind_some (run_acquire hfree), Prog.run_bind_some h, Prog.run_bind_some hrelease,
    Prog.run_pure]

namespace NameNode

theorem run_descend (createParent : Bool) {l : List Str} {ino parent : UInt64} (hown : Owned s.disk)
    (hl : resolve (dirText s.disk) ino l = some parent) :
    ∃ s', (descend createParent ino l).run Store.serve s = some (.ok parent, s') ∧ SameStore s s' := by
  induction l generalizing s ino with
  | nil =>
    cases hl
    exact ⟨s, rfl, SameStore.refl s⟩
  | cons component l ih =>
    obtain ⟨i, hentry, hrest⟩ := Option.bind_eq_some_iff.1 hl
    obtain ⟨r, s₁, hlookup, hsame, hsome, -⟩ := run_lookup s hown ino (cStr component) false ino
    have hfound := hsome i hentry
    rw [hfound] at hlookup
    rw [← hsame.touched.dirText_eq hown] at hrest
    obtain ⟨s₂, hrun, hsame'⟩ := ih (hsame.touched.owned hown) hrest
    refine ⟨s₂, ?_, hsame.trans hsame'⟩
    rw [descend, Prog.run_bind_some hlookup]
    dsimp only
    rw [if_neg (not_not.2 rfl), if_pos rfl, hrun]

theorem run_pbGetFileInfoFromInum (s : Store) (ino : UInt64) : ∃ info s',
    (pbGetFileInfoFromInum ino).run Store.serve s = some (info, s') ∧ s'.disk = s.disk ∧
      s'.held = s.held := by
  have hattr : ∀ (s : Store), (perform (.getattr ino)).run Store.serve s =
      some ((.ok, Server.getattr ino s.disk), s.next s.disk) := fun s => Prog.run_perform _ s
  have his : ∀ (type : FileType) (s : Store), (nlockIs type ino).run Store.serve s =
      some (decide ((Server.getattr ino s.disk).type = type.code), s.next s.disk) := by
    intro type s
    rw [nlockIs, Prog.run_bind_some (hattr s)]
    rfl
  have hinfo : ∀ {α : Type} (info : Attr → α) (s : Store), (getInfo info ino).run Store.serve s =
      some (some (info (Server.getattr ino s.disk)), s.next s.disk) := by
    intro α info s
    rw [getInfo, Prog.run_bind_some (hattr s)]
    rfl
  unfold pbGetFileInfoFromInum isfile isdir getfile getdir nlockIsfile nlockIsdir
  rw [Prog.run_bind_some (his .file s)]
  split_ifs
  · rw [Prog.run_bind_some (hinfo fileInfo _)]
    exact ⟨_, _, rfl, rfl, rfl⟩
  · rw [Prog.run_bind_some (his .dir _)]
    split_ifs
    · rw [Prog.run_bind_some (hinfo dirInfo _)]
      exact ⟨_, _, rfl, rfl, rfl⟩
    · exact ⟨_, _, rfl, rfl, rfl⟩

/-- `PBCreate` of a new name in a directory that is there: the file is empty, pending and locked. -/
theorem run_pbCreate {D : Type} (nn : NameNode D) {src : Str} (createParent : Bool) {parent : UInt64} {n : ℕ}
    (hown : Owned s.disk) (habsolute : src.head? = some slash)
    (hparent : resolve (dirText s.disk) 1 (parents src) = some parent) (hlast : lastName src ≠ [])
    (hnew : entryOf (dirText s.disk parent) (cStr (lastName src)) = none) (hnext : nextInode s.disk = some n)
    {text : Str} (htext : enteredText s.disk (UInt32.ofNat n) parent (cStr (lastName src)) = text)
    (hsmall : blockCount text.length ≤ nDirect) (hroom : blockCount text.length ≤ s.disk.freeBlocks.length)
    (hheld : s.held parent = false) (hheld' : s.held (UInt32.ofNat n).toUInt64 = false) :
    ∃ info s', (nn.pbCreate src createParent).run Store.serve s = some ((.ok info, { nn with
        pendingWrite := Function.update nn.pendingWrite (UInt32.ofNat n).toUInt64
          (some ((nn.pendingWrite (UInt32.ofNat n).toUInt64).getD 0)) }), s') ∧
      s'.held = Function.update s.held (UInt32.ofNat n).toUInt64 true ∧ Owned s'.disk ∧
      fileOf s'.disk = entered (fileOf s.disk) .file (UInt32.ofNat n) parent text ∧
      s.disk.freeBlocks.length ≤ s'.disk.freeBlocks.length + blockCount text.length := by
  obtain ⟨s₁, hdescend, hsame⟩ := run_descend createParent hown hparent
  have hown₁ := hsame.touched.owned hown
  have hfree₁ := hsame.touched.freeBlocks
  have hnew₁ : entryOf (dirText s₁.disk parent) (cStr (lastName src)) = none := by
    rw [hsame.touched.dirText_eq hown, hnew]
  have hheld₁ : s₁.held parent = false := by rw [hsame.held, hheld]
  obtain ⟨s₂, hadd, hheld₂, hown₂, hfiles₂, hfree₂⟩ :=
    run_nlockAdd (s := { s₁ with held := Function.update s₁.held parent true }) hown₁ .file parent hnew₁
      ((hsame.touched.nextInode_eq hown).trans hnext)
      ((hsame.touched.enteredText_eq hown _ parent _).trans htext) hsmall (by rwa [hfree₁])
  have hcreate : (Client.create parent (cStr (lastName src)) parent).run Store.serve s₁ =
      some ((.ok, (UInt32.ofNat n).toUInt64), { s₂ with held := s₁.held }) := run_locked hheld₁ hadd hheld₂
  have hfree' : ({ s₂ with held := s₁.held } : Store).held (UInt32.ofNat n).toUInt64 = false := by
    rw [← hheld', ← hsame.held]
  have hacquire := run_acquire hfree'
  have hmake : (create parent (lastName src) parent).run Store.serve s₁ =
    some ((true, (UInt32.ofNat n).toUInt64),
      { s₂ with held := Function.update s₁.held (UInt32.ofNat n).toUInt64 true }) := by
    rw [create, Prog.run_bind_some hcreate]
    dsimp only
    rw [if_pos rfl, Prog.run_bind_some hacquire, Prog.run_pure]
  obtain ⟨info, s₃, hinfo, hdisk, hheld₃⟩ := run_pbGetFileInfoFromInum
    { s₂ with held := Function.update s₁.held (UInt32.ofNat n).toUInt64 true } (UInt32.ofNat n).toUInt64
  refine ⟨info, s₃, ?_, ?_, ?_, ?_, ?_⟩
  · rw [pbCreate, if_pos habsolute, Prog.run_bind_some hdescend]
    dsimp only
    rw [if_neg hlast, Prog.run_bind_some hmake]
    dsimp only
    rw [if_pos rfl, Prog.run_bind_some hinfo, Prog.run_pure]
  · rw [hheld₃, hsame.held]
  · rwa [hdisk]
  · rw [hdisk, hfiles₂, hsame.touched.fileOf_eq hown]
  · rw [hdisk]
    rwa [hfree₁] at hfree₂

end NameNode
end

def freshStore : Store := ⟨Server.init quiet, fun _ => quiet, fun _ => false⟩

def oneFile (name : Str) (j : UInt32) : Option (UInt16 × Str) :=
  if j = 1 then some (FileType.dir.code.toUInt16, entry (name, [50]))
  else if j = 2 then some (FileType.file.code.toUInt16, []) else none

theorem nextInode_oneFile {d : Disk} {name : Str} (h : fileOf d = oneFile name) : nextInode d = some 3 := by
  have hrange : List.range' 1 (inodeNum - 1) = 1 :: 2 :: 3 :: List.range' 4 (inodeNum - 4) := rfl
  rw [nextInode_eq_find, hrange, h]
  rfl

theorem enteredText_init (name : Str) : enteredText (Server.init quiet) 2 1 name = entry (name, [50]) := by
  have hbytes : bytesOf (Server.init quiet) 1 = [] := by
    rw [bytesOf, fileOf_init]
    rfl
  have hnumber : filename (2 : UInt32).toUInt64 = [50] := by decide
  rw [enteredText, hbytes, ite_self, hnumber]
  rfl

private theorem entered_init (name : Str) :
    entered (fileOf freshStore.disk) .file (UInt32.ofNat 2) 1 (entry (name, [50])) = oneFile name := by
  funext j
  have hinit : fileOf freshStore.disk j = _ := fileOf_init quiet j
  unfold entered oneFile
  dsimp only
  rw [hinit]
  have hmask : maskId 1 = 1 := by decide
  have htwo : UInt32.ofNat 2 = 2 := by decide
  rw [hmask, htwo]
  by_cases h1 : j = 1
  · rw [h1]
    rfl
  · by_cases h2 : j = 2
    · rw [h2]
      rfl
    · simp [h1, h2]

theorem run_pbCreate_fresh (D : Type) (src : Str) (createParent : Bool) (habsolute : src.head? = some slash)
    (hparents : NameNode.parents src = []) (hlast : NameNode.lastName src ≠ [])
    (hlen : (entry (cStr (NameNode.lastName src), [50])).length ≤ blockSize) :
    ∃ info s', ((NameNode.init D).pbCreate src createParent).run Store.serve freshStore =
        some ((.ok info, { NameNode.init D with pendingWrite := Function.update (fun _ => none) 2 (some 0) }),
          s') ∧
      s'.held = Function.update (fun _ => false) 2 true ∧ Owned s'.disk ∧
      fileOf s'.disk = oneFile (cStr (NameNode.lastName src)) ∧ 1 ≤ s'.disk.freeBlocks.length := by
  have hdir : dirText (Server.init quiet) 1 = some [] := by
    rw [dirText_eq_fileOf, fileOf_init]
    decide
  have hcount : blockCount (entry (cStr (NameNode.lastName src), [50])).length ≤ 1 := by
    rw [blockCount_le, Nat.one_mul]
    exact hlen
  have hfree := freeBlocks_init quiet
  have hmany : (Server.init quiet).freeBlocks.length = blockNum - Disk.firstData := by
    rw [hfree, List.length_range']
  have hparent : resolve (dirText freshStore.disk) 1 (NameNode.parents src) = some 1 := by
    rw [hparents]
    rfl
  have hnew : entryOf (dirText freshStore.disk 1) (cStr (NameNode.lastName src)) = none := by
    rw [freshStore, hdir]
    rfl
  have hroom : blockCount (entry (cStr (NameNode.lastName src), [50])).length ≤
      freshStore.disk.freeBlocks.length := by
    rw [freshStore, hmany]
    exact hcount.trans (by decide)
  obtain ⟨info, s', hrun, hheld, hown, hfiles, hleft⟩ := NameNode.run_pbCreate (NameNode.init D) createParent
    (owned_init quiet) habsolute hparent hlast hnew (nextInode_init quiet) (enteredText_init _)
    (hcount.trans (by decide)) hroom
    rfl rfl
  refine ⟨info, s', hrun, hheld, hown, ?_, ?_⟩
  · rw [hfiles]
    exact entered_init _
  · rw [freshStore, hmany] at hleft
    have hbig : 2 ≤ blockNum - Disk.firstData := by decide
    omega

end Yfs.Hdfs
