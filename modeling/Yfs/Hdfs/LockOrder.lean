import Yfs.Hdfs.Balance
import Yfs.Hdfs.Effects
import Mathlib.Data.Set.Insert

/-! The order in which `unlink` of a client and `PBDelete` of the namenode take their locks: from
smaller to larger inums, as long as the entries of a directory have larger inums than the directory. -/
namespace Yfs.Hdfs
open Yfs.Lib Yfs.Extent Yfs.Client

inductive Side where
  | client | namenode
  deriving DecidableEq

def Climbs (dir : UInt64) (dirList : Str) : Prop := ∀ e ∈ entries dirList, dir < n2i e.2

/-- A set of locks that a thread holds, and what the thread does to it. A directory it reads has
entries with larger inums only. -/
def heldAct : (c : Call) → Set UInt64 → Reply c → Set UInt64 → Prop
  | .acquire lid, held, _, held' => held' = insert lid held
  | .release lid, held, _, held' => held' = held \ {lid}
  | .get id, held, r, held' => Climbs id r.2 ∧ held' = held
  | _, held, _, held' => held' = held

def Upward : Call → Set UInt64 → Prop
  | .acquire lid, held => ∀ l ∈ held, l < lid
  | _, _ => True

/-- The program asks for locks upwards, from the locks it holds on. -/
abbrev Ordered {α : Type} (Q : α → Set UInt64 → Prop) (p : M α) (held : Set UInt64) : Prop :=
  p.Wp Upward heldAct Q held

/-- What is left at a normal return; nothing is said about an exception. -/
def AtReturn {α : Type} (Q : Set UInt64 → Prop) : Option α → Set UInt64 → Prop
  | none, _ => True
  | some _, held => Q held

section
variable {α : Type} {held : Set UInt64}

theorem ordered_getattr (held : Set UInt64) (id : UInt64) :
    Ordered (fun _ held' => held' = held) (perform (.getattr id)) held :=
  Prog.wp_perform trivial fun _ _ h => h

theorem ordered_get (held : Set UInt64) (id : UInt64) :
    Ordered (fun r held' => Climbs id r.2 ∧ held' = held) (perform (.get id)) held :=
  Prog.wp_perform trivial fun _ _ h => h

theorem ordered_put (held : Set UInt64) (id : UInt64) (buf : Str) :
    Ordered (fun _ held' => held' = held) (perform (.put id buf)) held :=
  Prog.wp_perform trivial fun _ _ h => h

theorem ordered_remove (held : Set UInt64) (id : UInt64) :
    Ordered (fun _ held' => held' = held) (do let _ ← perform (.remove id)) held :=
  Prog.Wp.bind (Prog.wp_perform (Q := fun _ held' => held' = held) trivial fun _ _ h => h)
    fun _ _ heq => Prog.wp_pure heq

theorem ordered_acquire {lid : UInt64} (h : ∀ l ∈ held, l < lid) :
    Ordered (fun _ held' => held' = insert lid held) (perform (.acquire lid)) held :=
  Prog.wp_perform h fun _ _ h => h

theorem ordered_release (held : Set UInt64) (lid : UInt64) :
    Ordered (fun _ held' => held' = held \ {lid}) (perform (.release lid)) held :=
  Prog.wp_perform trivial fun _ _ h => h

theorem ordered_nlockIs (type : FileType) (held : Set UInt64) (id : UInt64) :
    Ordered (fun _ held' => held' = held) (nlockIs type id) held :=
  (ordered_getattr held id).bind fun _ _ h => Prog.wp_pure h

theorem ordered_nlockLookup (held : Set UInt64) (parent : UInt64) (name : Str) (out : UInt64) :
    Ordered (fun r held' => held' = held ∧ (r.2.1 = true → parent < r.2.2))
    (nlockLookup parent name false out)
      held := by
  apply Prog.Wp.bind (ordered_nlockIs .dir held parent)
  intro dir _ heq
  rw [heq]
  cases dir with
  | false => exact Prog.wp_pure ⟨rfl, fun h => nomatch h⟩
  | true =>
    refine (ordered_get _ parent).bind_at fun ⟨r, dirList⟩ hclimbs => ?_
    dsimp only [ite_true]
    split_ifs
    · cases hfind : findEntry dirList name with
      | none => exact Prog.wp_pure ⟨rfl, fun h => nomatch h⟩
      | some e => exact Prog.wp_pure ⟨rfl, fun _ => hclimbs e (List.mem_of_find?_eq_some hfind)⟩
    · exact Prog.wp_pure ⟨rfl, fun h => nomatch h⟩

theorem ordered_nlockReaddir (held : Set UInt64) (dir : UInt64) :
    Ordered (fun r held' => held' ⊆ held ∧ ∀ e ∈ r.2, dir < e.inum) (nlockReaddir dir) held := by
  apply Prog.Wp.bind (ordered_nlockIs .dir held dir)
  intro isDir _ heq
  rw [heq]
  cases isDir with
  | false =>
    refine (ordered_release _ dir).bind_state fun _ => ?_
    exact Prog.wp_pure ⟨Set.sdiff_subset, fun e he => nomatch he⟩
  | true =>
    refine (ordered_get _ dir).bind_at fun ⟨r, dirList⟩ hclimbs => ?_
    dsimp only [ite_true]
    split_ifs
    · refine Prog.wp_pure ⟨subset_rfl, fun e he => ?_⟩
      obtain ⟨e', he', rfl⟩ := List.mem_map.1 he
      exact hclimbs e' he'
    · exact Prog.wp_pure ⟨subset_rfl, fun e he => nomatch he⟩

theorem ordered_unlinkWith {remove : UInt64 → M Unit} {parent : UInt64}
    (hremove : ∀ target, parent < target → Ordered (fun _ held' => held' ⊆ held) (remove target) held)
    (name : Str) : Ordered (fun _ held' => held' ⊆ held) (unlinkWith remove parent name) held := by
  refine (ordered_nlockLookup held parent name 0).bind fun ⟨_, found, target⟩ _ ⟨heq, habove⟩ => ?_
  rw [heq]
  cases found with
  | false => exact Prog.wp_pure subset_rfl
  | true =>
    refine (ordered_get _ parent).bind_at fun ⟨r, dirList⟩ _ => ?_
    dsimp only [ite_true]
    split_ifs
    · cases unlinkText dirList name target with
      | none => exact Prog.wp_pure subset_rfl
      | some dirList' =>
        refine (ordered_put held parent dirList').bind_state fun _ => ?_
        exact (hremove target (habove rfl)).bind fun _ _ hsub => Prog.wp_pure hsub
    · exact Prog.wp_pure subset_rfl

theorem ordered_nlockUnlink (held : Set UInt64) (parent : UInt64) (name : Str) :
    Ordered (fun _ held' => held' ⊆ held) (nlockUnlink parent name) held := by
  apply ordered_unlinkWith
  intro target _
  exact (ordered_remove held target).mono fun _ _ heq => heq.subset

theorem ordered_unlink (parent : UInt64) (name : Str) :
    Ordered (fun _ _ => True) (Client.unlink parent name) ∅ := by
  refine (ordered_acquire fun l hl => absurd hl (Set.notMem_empty l)).bind_state fun _ => ?_
  refine Prog.Wp.bind (Q := fun _ _ => True) ?_ fun r _ _ => ?_
  · refine (ordered_unlinkWith (fun target habove => ?_) name).mono fun _ _ _ => trivial
    refine (ordered_acquire fun l hl => ?_).bind fun _ _ heq => ?_
    · rcases Set.mem_insert_iff.1 hl with rfl | hl
      · exact habove
      · exact absurd hl (Set.notMem_empty l)
    · rw [heq]
      refine (ordered_remove _ target).bind_state fun _ => ?_
      refine (ordered_release _ target).bind fun _ _ heq => Prog.wp_pure ?_
      rw [heq]
      exact Set.sdiff_singleton_subset_iff.2 subset_rfl
  · cases r with
    | none => trivial
    | some a => exact (ordered_release _ parent).bind fun _ _ _ => trivial

end

namespace NameNode
variable {held : Set UInt64}

theorem ordered_unlink (held : Set UInt64) (parent : UInt64) (name : Str) :
    Ordered (fun _ held' => held' ⊆ held) (unlink parent name) held :=
  (ordered_nlockUnlink held parent (cStr name)).bind fun _ _ h => Prog.wp_pure h

theorem ordered_readdir (held : Set UInt64) (ino : UInt64) :
    Ordered (fun r held' => held' ⊆ held ∧ ∀ e ∈ r.2, ino < e.inum) (readdir ino) held :=
  (ordered_nlockReaddir held ino).bind fun _ _ h => Prog.wp_pure h

theorem ordered_walkLast {ino last : UInt64} (hle : last ≤ ino) (l : List Str) :
    Ordered (fun r held' => held' = held ∧ ∀ q, r = some q → q.2 ≤ q.1) (walkLast ino last l) held := by
  induction l generalizing ino last with
  | nil =>
    refine Prog.wp_pure ⟨rfl, fun q hq => ?_⟩
    cases hq
    exact hle
  | cons component l ih =>
    refine (ordered_nlockLookup held ino (cStr component) ino).bind fun ⟨r, found, ino'⟩ _ ⟨heq, habove⟩ => ?_
    rw [heq]
    dsimp only
    split_ifs with hfound
    · exact ih (UInt64.le_of_lt (habove hfound.2))
    · exact Prog.wp_pure ⟨rfl, fun q hq => nomatch hq⟩

/-- The loop of `RecursiveDelete`: the lock of each entry is above those held, and is given back. -/
theorem ordered_deleteEntries {delete : UInt64 → M (Option Bool)} {ino : UInt64} {l : List Dirent}
    (hdelete : ∀ child held, (∀ lid ∈ held, lid ≤ child) → Ordered (AtReturn (· ⊆ held)) (delete child) held)
    (hl : ∀ e ∈ l, ino < e.inum) (hheld : ∀ lid ∈ held, lid ≤ ino) :
    Ordered (AtReturn (· ⊆ held)) (deleteEntries delete ino l) held := by
  induction l generalizing held with
  | nil => exact Prog.wp_pure subset_rfl
  | cons e l ih =>
    have habove := hl e List.mem_cons_self
    have hbelow : ∀ lid ∈ held, lid < e.inum := fun lid hlid => UInt64.lt_of_le_of_lt (hheld lid hlid) habove
    refine (ordered_acquire hbelow).bind_state fun _ => ?_
    have hrelease : ∀ {held₁}, held₁ ⊆ insert e.inum held →
        Ordered (fun _ held₂ => held₂ ⊆ held) (perform (.release e.inum)) held₁ := by
      intro held₁ hsub
      refine (ordered_release held₁ e.inum).mono fun _ _ heq => ?_
      rw [heq]
      exact Set.sdiff_singleton_subset_iff.2 hsub
    refine (hdelete e.inum _ fun lid hlid => ?_).bind fun r held₁ hsub => ?_
    · rcases Set.mem_insert_iff.1 hlid with rfl | hlid
      · exact UInt64.le_refl _
      · exact UInt64.le_of_lt (hbelow lid hlid)
    match r with
    | none => trivial
    | some false => exact (hrelease hsub).bind fun _ _ h => Prog.wp_pure h
    | some true =>
      refine (ordered_unlink held₁ ino e.name).bind fun r held₂ hsub₂ => ?_
      match r with
      | none => trivial
      | some false => exact (hrelease (hsub₂.trans hsub)).bind fun _ _ h => Prog.wp_pure h
      | some true =>
        refine (hrelease (hsub₂.trans hsub)).bind fun _ held₃ hsub₃ => ?_
        refine (ih (fun e' he' => hl e' (List.mem_cons_of_mem e he'))
          fun lid hlid => hheld lid (hsub₃ hlid)).mono fun r held₄ hsub₄ => ?_
        cases r with
        | none => trivial
        | some b => exact Set.Subset.trans hsub₄ hsub₃

theorem ordered_recursiveDelete (n : ℕ) {ino : UInt64} (hheld : ∀ lid ∈ held, lid ≤ ino) :
    Ordered (AtReturn (· ⊆ held)) (recursiveDelete n ino) held := by
  induction n generalizing held ino with
  | zero => trivial
  | succ n ih =>
    apply Prog.Wp.bind (ordered_nlockIs .dir held ino)
    intro isDir _ heq
    rw [heq]
    cases isDir with
    | false => exact Prog.wp_pure subset_rfl
    | true =>
      refine (ordered_readdir held ino).bind fun ⟨readOk, dir⟩ held₁ ⟨hsub, habove⟩ => ?_
      cases readOk with
      | false => exact Prog.wp_pure hsub
      | true =>
        refine (ordered_deleteEntries (fun child held h => ih h) habove
          fun lid hlid => hheld lid (hsub hlid)).mono fun r held₂ hsub₂ => ?_
        cases r with
        | none => trivial
        | some b => exact Set.Subset.trans hsub₂ hsub

theorem ordered_dualLock (a b : UInt64) : Ordered (fun _ held => held ⊆ {a, b}) (dualLock a b) ∅ := by
  have hfirst : ∀ lid, Ordered (fun _ held => held = {lid}) (perform (.acquire lid)) ∅ := by
    intro lid
    refine (ordered_acquire fun l hl => absurd hl (Set.notMem_empty l)).mono fun _ _ heq => ?_
    rw [heq, insert_empty_eq]
  have hsecond : ∀ {l lid}, l < lid → Ordered (fun _ held => held = {lid, l}) (perform (.acquire lid))
      {l} := by
    intro l lid hlt
    refine (ordered_acquire fun l' hl' => ?_).mono fun _ _ heq => heq
    rw [Set.mem_singleton_iff.1 hl']
    exact hlt
  unfold dualLock
  split_ifs with hab hba
  · refine (hfirst a).bind_state fun _ => ?_
    refine (hsecond hab).bind fun _ _ heq => Prog.wp_pure ?_
    rw [heq, Set.pair_comm]
  · refine (hfirst b).bind_state fun _ => ?_
    exact (hsecond hba).bind fun _ _ heq => Prog.wp_pure heq.subset
  · refine (hfirst a).bind fun _ _ heq => Prog.wp_pure ?_
    rw [heq]
    exact Set.singleton_subset_iff.2 (Set.mem_insert a {b})

theorem ordered_deleteEmpty (held : Set UInt64) (src : Str) (ino parent : UInt64) :
    Ordered (fun _ _ => True) (deleteEmpty src ino parent) held := by
  have hunlink : ∀ held, Ordered (fun _ _ => True) (unlink parent (baseName src)) held :=
    fun held => (ordered_unlink held parent (baseName src)).mono fun _ _ _ => trivial
  refine (ordered_nlockIs .dir held ino).bind fun isDir held₁ _ => ?_
  cases isDir with
  | false => exact hunlink held₁
  | true =>
    refine (ordered_readdir held₁ ino).bind fun ⟨readOk, dir⟩ held₂ _ => ?_
    dsimp only
    split_ifs
    · exact hunlink held₂
    · trivial

private theorem ordered_dualUnlock (held : Set UInt64) (a b : UInt64) :
    Ordered (fun _ _ => True) (dualUnlock a b) held := by
  unfold dualUnlock
  split_ifs
  · exact (ordered_release held a).bind fun _ _ _ => trivial
  · exact (ordered_release held a).bind fun _ _ _ => (ordered_release _ b).bind fun _ _ _ => trivial

/-- `PBDelete` locks the parent and the entry, then the entries below. -/
theorem ordered_pbDelete (n : ℕ) (src : Str) (recursive : Bool) :
    Ordered (fun _ _ => True) (pbDelete n src recursive) ∅ := by
  have hlookup : Ordered (fun r held => held = ∅ ∧ ∀ q, r = some q → q.2 ≤ q.1)
      (recursiveLookupLast src) ∅ := by
    unfold recursiveLookupLast
    split_ifs
    · exact ordered_walkLast (UInt64.le_refl 1) (components src)
    · exact Prog.wp_pure ⟨rfl, fun q hq => nomatch hq⟩
  refine hlookup.bind fun found _ ⟨heq, hle⟩ => ?_
  rw [heq]
  match found with
  | none => trivial
  | some (ino, parent) =>
    have hle' : parent ≤ ino := hle _ rfl
    refine (ordered_dualLock ino parent).bind fun _ held hsub => ?_
    have hbelow : ∀ lid ∈ held, lid ≤ ino := by
      intro lid hlid
      rcases hsub hlid with rfl | rfl
      · exact UInt64.le_refl _
      · exact hle'
    refine Prog.Wp.bind (Q := fun _ _ => True) ?_ fun r held₁ _ => ?_
    · unfold deleteAll
      split_ifs
      · refine (ordered_recursiveDelete n hbelow).bind fun r held₁ _ => ?_
        match r with
        | none => trivial
        | some false => trivial
        | some true => exact ordered_deleteEmpty held₁ src ino parent
      · exact ordered_deleteEmpty held src ino parent
    · cases r with
      | none => trivial
      | some b => exact (ordered_dualUnlock held₁ ino parent).bind fun _ _ _ => trivial

end NameNode

/-- The lock that a program is about to ask for. -/
def waits {α : Type} : M α → Option UInt64
  | .call (.acquire lid) _ => some lid
  | _ => none

/-- A client that unlinks `name` in `parent`, and a namenode that deletes `src`. -/
def contenders (parent : UInt64) (name : Str) (n : ℕ) (src : Str) (recursive : Bool) : Side → M (Option Unit)
  | .client => (Operation.unlink parent name).call
  | .namenode => (Operation.pbDelete n src recursive).call

/-- Each of the two holds a lock that the other is asking for. -/
def HoldAndWait (p : Pool Call Reply Side (World Side) (Option Unit)) : Prop :=
  ∃ l l', p.state.lock l = some .client ∧ waits (p.prog .client) = some l' ∧
    p.state.lock l' = some .namenode ∧ waits (p.prog .namenode) = some l

/-- A directory that is read lists larger inums than its own only. -/
def ReadsClimbing : Call → Files → Prop
  | .get id, files => Climbs id (text (files id))
  | _, _ => True

private theorem held_update_of_ne {f : UInt64 → Option Side} {lid : UInt64} {v : Option Side} {t : Side}
    (hold : f lid ≠ some t) (hnew : v ≠ some t) :
    {l | Function.update f lid v l = some t} = {l | f l = some t} := by
  ext l
  by_cases hl : l = lid
  · simp [hl, hold, hnew]
  · simp [Function.update_of_ne hl]

theorem heldAct_of_serve {t : Side} {c : Call} {w w' : World Side} {r : Reply c}
    (hreads : ReadsClimbing c w.files) (hserve : World.serve t c w r w') :
    heldAct c {l | w.lock l = some t} r {l | w'.lock l = some t} ∧
      ∀ t', t' ≠ t → {l | w'.lock l = some t'} = {l | w.lock l = some t'} := by
  have hkeep : w'.lock = w.lock → ∀ t', {l | w'.lock l = some t'} = {l | w.lock l = some t'} :=
    fun h t' => by rw [h]
  cases c with
  | acquire lid =>
    obtain ⟨hfree, rfl⟩ := hserve
    constructor
    · ext l
      by_cases hl : l = lid
      · simp [hl]
      · simp [hl]
    · intro t' hne
      exact held_update_of_ne (by simp [hfree]) (by simp [Ne.symm hne])
  | release lid =>
    obtain ⟨hheld, rfl⟩ := hserve
    constructor
    · ext l
      by_cases hl : l = lid
      · simp [hl]
      · simp [hl]
    · intro t' hne
      exact held_update_of_ne (by simp [hheld, Ne.symm hne]) (by simp)
  | get id =>
    obtain ⟨⟨hr, -⟩, hlock⟩ := hserve
    rw [hr]
    exact ⟨⟨hreads, hkeep hlock t⟩, fun t' _ => hkeep hlock t'⟩
  | _ => exact ⟨hkeep hserve.2 t, fun t' _ => hkeep hserve.2 t'⟩

/-- Each side asks for its next locks upwards. -/
def InOrder (p : Pool Call Reply Side (World Side) (Option Unit)) : Prop :=
  ∀ t, Ordered (fun _ _ => True) (p.prog t) {l | p.state.lock l = some t}

theorem InOrder.step {p p' : Pool Call Reply Side (World Side) (Option Unit)} (h : InOrder p)
    (hstep : Pool.Step (fun t c w r w' => ReadsClimbing c w.files ∧ World.serve t c w r w') p p') :
    InOrder p' := by
  obtain @⟨t, c, next, r, w', hprog, hreads, hserve⟩ := hstep
  obtain ⟨hact, hothers⟩ := heldAct_of_serve hreads hserve
  intro t'
  by_cases ht : t' = t
  · subst ht
    have hordered := h t'
    rw [hprog] at hordered
    dsimp only
    rw [Function.update_self]
    exact hordered.2 r _ hact
  · dsimp only
    rw [Function.update_of_ne ht, hothers t' ht]
    exact h t'

theorem inOrder_contenders (files : Files) (parent : UInt64) (name : Str) (n : ℕ) (src : Str)
    (recursive : Bool) : InOrder ⟨⟨files, fun _ => none⟩, contenders parent name n src recursive⟩ := by
  have hnone : ∀ t : Side, {l : UInt64 | (none : Option Side) = some t} = ∅ := by
    intro t
    ext l
    simp
  intro t
  dsimp only
  rw [hnone]
  cases t with
  | client => exact (ordered_unlink parent name).bind fun _ _ _ => trivial
  | namenode => exact (NameNode.ordered_pbDelete n src recursive).bind fun _ _ _ => trivial

theorem ordered_waits {α : Type} {Q : α → Set UInt64 → Prop} {p : M α} {held : Set UInt64} {lid : UInt64}
    (h : Ordered Q p held) (hwaits : waits p = some lid) : ∀ l ∈ held, l < lid := by
  unfold waits at hwaits
  split at hwaits
  · cases hwaits
    exact h.1
  · cases hwaits

theorem InOrder.not_holdAndWait {p : Pool Call Reply Side (World Side) (Option Unit)} (h : InOrder p) :
    ¬HoldAndWait p := by
  rintro ⟨l, l', hclient, hwaits, hnamenode, hwaits'⟩
  have hlt : l < l' := ordered_waits (h .client) hwaits l hclient
  have hgt : l' < l := ordered_waits (h .namenode) hwaits' l' hnamenode
  exact UInt64.lt_asymm hlt hgt

/-- As long as every directory that is read lists larger inums than its own only, the two sides never
wait for each other. -/
theorem no_hold_and_wait {files : Files} {parent : UInt64} {name : Str} {n : ℕ} {src : Str} {recursive : Bool}
    {p : Pool Call Reply Side (World Side) (Option Unit)}
    (hrun : Relation.ReflTransGen
      (Pool.Step fun t c w r w' => ReadsClimbing c w.files ∧ World.serve t c w r w')
      ⟨⟨files, fun _ => none⟩, contenders parent name n src recursive⟩ p) : ¬HoldAndWait p := by
  apply InOrder.not_holdAndWait
  induction hrun with
  | refl => exact inOrder_contenders files parent name n src recursive
  | tail _ hstep ih => exact ih.step hstep

instance (dir : UInt64) (dirList : Str) : Decidable (Climbs dir dirList) :=
  inferInstanceAs (Decidable (∀ e ∈ entries dirList, dir < n2i e.2))

instance (c : Call) (files : Files) : Decidable (ReadsClimbing c files) := by
  cases c with
  | get id => exact inferInstanceAs (Decidable (Climbs id (text (files id))))
  | _ => exact .isTrue trivial

/-- A root with one file `a`: the client holds the lock of the root, the namenode waits for it. -/
theorem no_hold_and_wait_file : ∃ p : Pool Call Reply Side (World Side) (Option Unit),
    p.state.lock 1 = some .client ∧ waits (p.prog .namenode) = some 1 ∧ ¬HoldAndWait p := by
  let files : Files := Function.update (Function.update (fun _ => none) 1
      (some (FileType.dir.code, [97, 59, 50])))
    2 (some (FileType.file.code, []))
  let reply (t : Side) (c : Call) (w : World Side) :=
    if ReadsClimbing c w.files then World.reply t c w else none
  let start : Pool Call Reply Side (World Side) (Option Unit) :=
    ⟨⟨files, fun _ => none⟩, contenders 1 [97] 1 [47, 97] false⟩
  have hplay : (Pool.play reply [.client, .namenode, .namenode, .client, .client] start).any
      (fun p => p.state.lock 1 = some .client ∧ waits (p.prog .namenode) = some 1) = true := by
    decide +kernel
  obtain ⟨p, hp, hcheck⟩ := (Option.any_eq_true _ _).1 hplay
  obtain ⟨hheld, hwaits⟩ := of_decide_eq_true hcheck
  refine ⟨p, hheld, hwaits, no_hold_and_wait (Pool.run_of_play (fun t c w r w' h => ?_) hp)⟩
  dsimp only [reply] at h
  split_ifs at h with hreads
  exact ⟨hreads, World.serve_of_reply h⟩

def Operation.Shaping : Operation → Bool
  | .create _ _ _ | .mkdir _ _ _ | .unlink _ _ | .pbDelete _ _ _ => true
  | _ => false

/-- The namespaces that creates, mkdirs and removals lead to, one at a time. -/
inductive Shaped : Files → Prop
  | root : Shaped rootFiles
  | step {files : Files} {op : Operation} {r : Option Unit} {w : World Unit} (h : Shaped files)
      (hop : op.Shaping = true) (hexec : op.call.Exec (World.serve ()) ⟨files, fun _ => none⟩ r w) :
      Shaped w.files

/-- The namespace that a list of operations leads to, with first-fit allocation of inums. -/
def build : List Operation → Files → Option Files
  | [], files => some files
  | op :: l, files =>
    if op.Shaping then
      (op.call.run (World.reply ()) ⟨files, fun _ => none⟩).bind fun q => build l q.2.files
    else none

private theorem shaped_of_build {l : List Operation} {files files' : Files} (h : Shaped files)
    (hbuild : build l files = some files') : Shaped files' := by
  induction l generalizing files with
  | nil =>
    cases hbuild
    exact h
  | cons op l ih =>
    unfold build at hbuild
    split_ifs at hbuild with hop
    obtain ⟨⟨r, w⟩, hrun, hrest⟩ := Option.bind_eq_some_iff.1 hbuild
    exact ih (h.step hop (World.exec_of_run hrun)) hrest

/-- After `a` is made and removed, file `x` of directory `d` has the inum of `a`, below that of `d`.
The namenode locks `x` before `d`, the client locks `d` before `x`. -/
theorem hold_and_wait_reused : ∃ files, Shaped files ∧ ∃ p,
    Relation.ReflTransGen (Pool.Step World.serve)
      ⟨⟨files, fun _ => none⟩, contenders 3 [120] 1 [47, 100, 47, 120] false⟩ p ∧ HoldAndWait p := by
  have hbuild : (build [.create 1 [97] 0, .mkdir 1 [100] 0, .unlink 1 [97], .create 3 [120] 0] rootFiles).any
      (fun files => (Pool.play World.reply [.namenode, .namenode, .namenode, .namenode, .namenode,
        .client, .client, .client, .client, .client]
        ⟨⟨files, fun _ => none⟩, contenders 3 [120] 1 [47, 100, 47, 120] false⟩).any fun p =>
          p.state.lock 3 = some Side.client ∧ waits (p.prog .client) = some 2 ∧
            p.state.lock 2 = some Side.namenode ∧ waits (p.prog .namenode) = some 3) = true := by
    decide +kernel
  obtain ⟨files, hfiles, hplay⟩ := (Option.any_eq_true _ _).1 hbuild
  obtain ⟨p, hp, hcheck⟩ := (Option.any_eq_true _ _).1 hplay
  exact ⟨files, shaped_of_build .root hfiles, p, World.run_of_play hp, 3, 2, of_decide_eq_true hcheck⟩

end Yfs.Hdfs
