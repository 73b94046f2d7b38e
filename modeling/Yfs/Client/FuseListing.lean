import Mathlib.Algebra.Order.BigOperators.Group.List
import Yfs.Client.FuseReach

/-! A directory that is read page by page, as the kernel does: `fuseserver_readdir` builds the whole buffer
for each page, and the directory may grow in between. -/
namespace Yfs.Client.Fuse
open Yfs.Lib Yfs.Extent

/-- How the kernel takes a buffer apart. `parse` gives the first entry, the offset stored with it and what
follows; nothing if the entry is cut off. -/
structure DirentReader extends DirentFormat where
  parse : Str → Option ((Str × UInt64) × ℕ × Str)
  size_pos : ∀ n, 0 < size n
  size_le : ∀ n, size n ≤ n + 31
  parse_dirent : ∀ name ino off rest, name.length < 2 ^ 31 → off < 2 ^ 63 →
    parse (dirent name ino off ++ rest) = some ((name, ino), off, rest)
  parse_cut : ∀ name ino off n, name.length < 2 ^ 31 → n < size name.length →
    parse ((dirent name ino off).take n) = none

/-- A reader of a directory: where the next page begins, the entries it has got, and whether it is done. -/
structure Cursor where
  off : ℕ := 0
  seen : List (Str × UInt64) := []
  ended : Bool := false

namespace Cursor

def takeEntries (r : DirentReader) : ℕ → Str → Cursor → Cursor
  | 0, _, c => c
  | fuel + 1, b, c =>
    match r.parse b with
    | none => c
    | some (e, off, rest) => takeEntries r fuel rest { c with off := off, seen := c.seen ++ [e] }

def takePage (r : DirentReader) (c : Cursor) (b : Str) : Cursor :=
  if b = [] then { c with ended := true } else takeEntries r b.length b c

/-- The reader takes the pages of its directory that begin where it stands. -/
def step (r : DirentReader) (ino : UInt64) (c : Cursor) : Request × Answer → Cursor
  | (.readdir d _ off, .buf b) =>
    if d = ino ∧ off.toInt = c.off ∧ c.ended = false then c.takePage r b else c
  | _ => c

end Cursor

def scan (r : DirentReader) (ino : UInt64) (log : List (Request × Answer)) : Cursor :=
  log.foldl (Cursor.step r ino) {}

def dirents (f : DirentFormat) : ℕ → List (Str × UInt64) → Str
  | _, [] => []
  | off, e :: l => f.dirent e.1 e.2 (off + f.size e.1.length) ++ dirents f (off + f.size e.1.length) l

section
variable {f : DirentFormat} {r : DirentReader} {off : ℕ} {l l' seen : List (Str × UInt64)}
  {e : Str × UInt64}

theorem length_dirents (f : DirentFormat) (off : ℕ) (l : List (Str × UInt64)) :
    (dirents f off l).length = (l.map fun e => f.size e.1.length).sum := by
  induction l generalizing off with
  | nil => rfl
  | cons e l ih => rw [dirents, List.length_append, f.length_dirent, ih, List.map_cons, List.sum_cons]

private theorem dirbuf_concat (f : DirentFormat) (l : List (Str × UInt64)) (h : (0 : UInt8) ∉ e.1) :
    dirbuf f (l ++ [e]) =
      dirbuf f l ++ f.dirent e.1 e.2 ((dirbuf f l).length + f.size e.1.length) := by
  unfold dirbuf
  rw [List.foldl_append]
  change dirbufAdd f _ e.1 e.2 = _
  rw [dirbufAdd, cStr_eq_self h]

theorem dirbuf_append (f : DirentFormat) (l : List (Str × UInt64)) (h : ∀ e ∈ l', (0 : UInt8) ∉ e.1) :
    dirbuf f (l ++ l') = dirbuf f l ++ dirents f (dirbuf f l).length l' := by
  induction l' generalizing l with
  | nil => rw [List.append_nil, dirents, List.append_nil]
  | cons e l' ih =>
    obtain ⟨he, hl'⟩ := List.forall_mem_cons.1 h
    rw [List.append_cons, ih (l ++ [e]) hl', dirbuf_concat f l he, dirents, List.length_append,
      f.length_dirent, List.append_assoc]

theorem dirbuf_eq_dirents (f : DirentFormat) (h : ∀ e ∈ l, (0 : UInt8) ∉ e.1) :
    dirbuf f l = dirents f 0 l := by
  have hbuf := dirbuf_append f [] h
  rwa [List.nil_append] at hbuf

theorem sum_length_le (l : List (Str × Str)) :
    (l.map fun e => e.1.length + 1).sum ≤ (render l).length := by
  induction l with
  | nil => exact le_rfl
  | cons e l ih =>
    rw [List.map_cons, List.sum_cons]
    have hentry := length_entry e
    by_cases hl : l = []
    · subst hl
      rw [render]
      simp only [List.map_nil, List.sum_nil]
      omega
    · rw [render_cons e hl, List.length_append, List.length_cons]
      omega

theorem length_name_lt (hfits : (Node.dir l).Fits) (he : e ∈ l) : e.1.length < 2 ^ 31 := by
  have hlen : (build l).length < 2 ^ 31 := hfits.1
  have hsum := sum_length_le (l.map written)
  rw [← build_eq_render, List.map_map] at hsum
  have hmem : e.1.length + 1 ∈ l.map ((fun e => e.1.length + 1) ∘ written) := List.mem_map_of_mem he
  have hle := List.single_le_sum (fun _ _ => Nat.zero_le _) _ hmem
  omega

theorem length_dirbuf_lt (hfits : (Node.dir l).Fits) (r : DirentReader) :
    (dirbuf r.toDirentFormat l).length < 2 ^ 63 := by
  have hlen : (build l).length < 2 ^ 31 := hfits.1
  have hsum := sum_length_le (l.map written)
  rw [← build_eq_render, List.map_map] at hsum
  rw [dirbuf_eq_dirents _ hfits.2.2, length_dirents]
  have hle : (l.map fun e => r.size e.1.length).sum ≤
      (l.map fun e => 31 * ((fun e : Str × Str => e.1.length + 1) ∘ written) e).sum := by
    refine List.sum_le_sum fun e _ => ?_
    have hsize := r.size_le e.1.length
    change _ ≤ 31 * (e.1.length + 1)
    omega
  rw [List.sum_map_mul_left] at hle
  omega

private theorem takeEntries_none {b : Str} (h : r.parse b = none) (fuel : ℕ) (c : Cursor) :
    Cursor.takeEntries r fuel b c = c := by
  cases fuel with
  | zero => rfl
  | succ fuel => rw [Cursor.takeEntries, h]

private theorem parse_nil (r : DirentReader) : r.parse [] = none := by
  have hcut := r.parse_cut [] 0 0 0 (by norm_num) (r.size_pos _)
  rwa [List.take_zero] at hcut

/-- The entries of a page: some of those that follow, and one at least if the first has room. -/
theorem takeEntries_dirents (r : DirentReader) (hname : ∀ e ∈ l, e.1.length < 2 ^ 31)
    (hoff : off + (dirents r.toDirentFormat off l).length < 2 ^ 63) (seen : List (Str × UInt64)) (n fuel : ℕ)
    (hfuel : ((dirents r.toDirentFormat off l).take n).length ≤ fuel) (b : Bool) :
    ∃ k, Cursor.takeEntries r fuel ((dirents r.toDirentFormat off l).take n) ⟨off, seen, b⟩ =
        ⟨off + (dirents r.toDirentFormat off (l.take k)).length, seen ++ l.take k, b⟩ ∧
      ((l.take k) = [] → ∀ e ∈ l.head?, n < r.size e.1.length) := by
  induction l generalizing off seen n fuel with
  | nil =>
    refine ⟨0, ?_, fun _ e he => absurd he (by simp)⟩
    rw [dirents, List.take_nil, takeEntries_none (parse_nil r), List.take_nil, dirents, List.append_nil]
    rfl
  | cons e l ih =>
    obtain ⟨he, hl⟩ := List.forall_mem_cons.1 hname
    have hsize : (r.dirent e.1 e.2 (off + r.size e.1.length)).length = r.size e.1.length :=
      r.length_dirent _ _ _
    have hpos := r.size_pos e.1.length
    rw [dirents] at hoff hfuel ⊢
    rw [List.length_append, hsize] at hoff
    by_cases hn : n < r.size e.1.length
    · -- the first entry is cut off
      refine ⟨0, ?_, fun _ e' he' => ?_⟩
      · rw [List.take_append_of_le_length (by omega), takeEntries_none (r.parse_cut _ _ _ n he hn),
          List.take_zero, dirents, List.append_nil]
        rfl
      · cases he'
        exact hn
    · have htake : ∀ rest : Str, (r.dirent e.1 e.2 (off + r.size e.1.length) ++ rest).take n =
          r.dirent e.1 e.2 (off + r.size e.1.length) ++ rest.take (n - r.size e.1.length) := by
        intro rest
        rw [List.take_append, List.take_of_length_le (by omega), hsize]
      rw [htake, List.length_append, hsize] at hfuel
      obtain ⟨fuel, rfl⟩ : ∃ fuel', fuel = fuel' + 1 := ⟨fuel - 1, by omega⟩
      have hoff' : off + r.size e.1.length + (dirents r.toDirentFormat (off + r.size e.1.length) l).length
          < 2 ^ 63 := by omega
      obtain ⟨k, hk, -⟩ := ih hl hoff' (seen ++ [e]) (n - r.size e.1.length) fuel (by omega)
      refine ⟨k + 1, ?_, fun hnil => absurd hnil (by simp)⟩
      rw [htake, Cursor.takeEntries, r.parse_dirent _ _ _ _ he (by omega)]
      dsimp only
      rw [hk, List.take_succ_cons, dirents, List.length_append, hsize, ← Nat.add_assoc, ← List.append_cons]

def Cursor.Stands (f : DirentFormat) (c : Cursor) (l : List (Str × UInt64)) : Prop :=
  c.seen <+: l ∧ c.off = (dirbuf f c.seen).length

theorem Cursor.Stands.takePage {c : Cursor} (h : c.Stands r.toDirentFormat l) (hfits : (Node.dir l).Fits)
    {size : ℕ} (hsize : 0 < size) :
    (c.takePage r (((dirbuf r.toDirentFormat l).drop c.off).take size)).Stands r.toDirentFormat l ∧
      ((c.takePage r (((dirbuf r.toDirentFormat l).drop c.off).take size)).ended = true →
        c.ended = true ∨ (c.takePage r (((dirbuf r.toDirentFormat l).drop c.off).take size)).seen = l) ∧
      ((∀ e ∈ l, r.size e.1.length ≤ size) →
        (c.takePage r (((dirbuf r.toDirentFormat l).drop c.off).take size)).ended = true ∨
        c.seen.length < (c.takePage r (((dirbuf r.toDirentFormat l).drop c.off).take size)).seen.length) := by
  obtain ⟨coff, seen, ended⟩ := c
  obtain ⟨⟨rest, rfl⟩, hoff⟩ := h
  dsimp only at hoff
  subst hoff
  have hzero : ∀ e ∈ rest, (0 : UInt8) ∉ e.1 := fun e he => hfits.2.2 e (List.mem_append_right seen he)
  have hname : ∀ e ∈ rest, e.1.length < 2 ^ 31 := fun e he =>
    length_name_lt hfits (List.mem_append_right seen he)
  have hlt := length_dirbuf_lt hfits r
  have hbuf := dirbuf_append r.toDirentFormat seen hzero
  have hdrop : (dirbuf r.toDirentFormat (seen ++ rest)).drop (dirbuf r.toDirentFormat seen).length =
      dirents r.toDirentFormat (dirbuf r.toDirentFormat seen).length rest := by
    rw [hbuf, List.drop_left]
  rw [hbuf, List.length_append] at hlt
  dsimp only
  rw [hdrop]
  unfold Cursor.takePage
  split_ifs with hnil
  · -- nothing is left
    refine ⟨⟨List.prefix_append _ _, rfl⟩, fun _ => .inr ?_, fun _ => .inl rfl⟩
    cases rest with
    | nil => exact (List.append_nil seen).symm
    | cons e rest =>
      have hlen := congrArg List.length hnil
      rw [List.length_take, length_dirents, List.map_cons, List.sum_cons, List.length_nil] at hlen
      have hpos := r.size_pos e.1.length
      omega
  · obtain ⟨k, hk, hmore⟩ := takeEntries_dirents r hname hlt seen size _ le_rfl ended
    rw [hk]
    refine ⟨⟨?_, ?_⟩, fun hended => .inl hended, fun hroom => .inr ?_⟩
    · exact (List.prefix_append_right_inj seen).2 (List.take_prefix k rest)
    · dsimp only
      rw [dirbuf_append _ _ fun e he => hzero e (List.take_subset k rest he), List.length_append]
    · dsimp only
      rw [List.length_append]
      have hne : rest.take k ≠ [] := by
        intro hk0
        cases rest with
        | nil =>
          rw [dirents, List.take_nil] at hnil
          exact hnil rfl
        | cons e rest =>
          have hcut := hmore hk0 e rfl
          have hle := hroom e (by simp)
          omega
      have hpos := List.length_pos_of_ne_nil hne
      omega

theorem Cursor.Stands.mono {c : Cursor} (h : c.Stands f l) (hl : l <+: l') : c.Stands f l' :=
  ⟨h.1.trans hl, h.2⟩

end

section
variable {T : Type} {t : T} {f : DirentFormat} {r : DirentReader} {tree tree' tree₀ : Tree} {q : Request}
  {a : Answer} {log : List (Request × Answer)} {w : World T} {ino : UInt64} {l l₀ : List (Str × UInt64)}

/-- A directory from which nothing is unlinked grows at its end. -/
theorem Answers.grows (hans : Answers f tree q a tree') (hdir : tree ino = some (.dir l))
    (hq : ∀ name, q ≠ .unlink ino name) (hlive : tree' ino ≠ none) :
    ∃ l', tree' ino = some (.dir l') ∧ l <+: l' := by
  rcases hans.cases with rfl | ⟨file, content, content', hfile, rfl⟩ |
    ⟨parent, lp, name, new, node, hp, -, hnew, -, rfl⟩ | ⟨parent, lp, name, old, rfl, hp, -, rfl⟩
  · exact ⟨l, hdir, List.prefix_refl l⟩
  · have hne : ino ≠ file := by
      rintro rfl
      rw [hdir] at hfile
      cases hfile
    exact ⟨l, (tree.set_of_ne hne _).trans hdir, List.prefix_refl l⟩
  · by_cases hparent : ino = parent
    · subst hparent
      rw [hdir] at hp
      cases hp
      exact ⟨_, Tree.set_self _ _ _, List.prefix_append l _⟩
    · have hne : ino ≠ new := by
        rintro rfl
        rw [hdir] at hnew
        cases hnew
      exact ⟨l, (Tree.set_of_ne _ hparent _).trans ((tree.set_of_ne hne _).trans hdir), List.prefix_refl l⟩
  · have hne : ino ≠ old := by
      rintro rfl
      exact hlive (Function.update_self _ _ _)
    have hparent : ino ≠ parent := by
      rintro rfl
      exact hq name rfl
    refine ⟨l, ?_, List.prefix_refl l⟩
    unfold Tree.remove Tree.cut
    rw [Function.update_of_ne hne, tree.set_of_ne hparent, hdir]

theorem Answers.live (hans : Answers f tree q a tree') (hq : ∀ parent name, q ≠ .unlink parent name)
    (hlive : tree ino ≠ none) : tree' ino ≠ none := by
  have hset : ∀ (tree : Tree) id node, tree ino ≠ none → tree.set id node ino ≠ none := by
    intro tree id node hold
    by_cases hid : ino = id
    · rw [hid, tree.set_self]
      exact Option.some_ne_none _
    · rwa [tree.set_of_ne hid]
  rcases hans.cases with rfl | ⟨file, content, content', -, rfl⟩ |
    ⟨parent, lp, name, new, node, -, -, -, -, rfl⟩ | ⟨parent, lp, name, old, heq, -, -, -⟩
  · exact hlive
  · exact hset tree file _ hlive
  · exact hset _ parent _ (hset tree new node hlive)
  · exact absurd heq (hq parent name)

theorem Run.live (hrun : Run f tree₀ log tree) (hq : ∀ parent name, .unlink parent name ∉ log.map Prod.fst)
    (hlive : tree₀ ino ≠ none) : tree ino ≠ none := by
  induction hrun with
  | nil => exact hlive
  | snoc _ hans ih =>
    simp only [List.map_append, List.mem_append, not_or] at hq
    exact hans.live (fun parent name heq => (hq parent name).2 (by simp [heq])) (ih fun p n => (hq p n).1)

/-- Directory `ino` stays, nothing is unlinked from it, and no page of it is asked for without room. -/
structure Undisturbed (f : DirentFormat) (tree₀ : Tree) (ino : UInt64) (log : List (Request × Answer)) :
    Prop where
  stays : ∀ before tree, before <+: log → Run f tree₀ before tree → tree ino ≠ none
  kept : ∀ name a, (.unlink ino name, a) ∉ log
  room : ∀ size off a, (.readdir ino size off, a) ∈ log → 0 < size

theorem Undisturbed.of_append {log' : List (Request × Answer)} (h : Undisturbed f tree₀ ino (log ++ log')) :
    Undisturbed f tree₀ ino log where
  stays before tree hpre := h.stays before tree (hpre.trans (List.prefix_append log log'))
  kept name a hmem := h.kept name a (List.mem_append_left log' hmem)
  room size off a hmem := h.room size off a (List.mem_append_left log' hmem)

theorem scan_concat (r : DirentReader) (ino : UInt64) (log : List (Request × Answer)) (x : Request × Answer) :
    scan r ino (log ++ [x]) = (scan r ino log).step r ino x := by
  rw [scan, List.foldl_append]
  rfl

theorem Cursor.Stands.step {c : Cursor} (h : c.Stands r.toDirentFormat l) (hfits : (Node.dir l).Fits)
    (hdir : tree ino = some (.dir l)) (hans : Answers r.toDirentFormat tree q a tree')
    (hroom : ∀ size off, q = .readdir ino size off → 0 < size) :
    (c.step r ino (q, a)).Stands r.toDirentFormat l ∧
      ((c.step r ino (q, a)).ended = true → c.step r ino (q, a) = c ∨ (c.step r ino (q, a)).seen = l) := by
  have hsame : c.Stands r.toDirentFormat l ∧ (c.ended = true → c = c ∨ c.seen = l) := ⟨h, fun _ => .inl rfl⟩
  cases hans with
  | @readdir d l' size off hd =>
    unfold Cursor.step
    dsimp only
    split_ifs with hmine
    · obtain ⟨rfl, hoff, hopen⟩ := hmine
      rw [hdir] at hd
      cases hd
      rw [hoff, Int.toNat_natCast]
      obtain ⟨hstands, hended, -⟩ := h.takePage hfits (hroom size off rfl)
      refine ⟨hstands, fun hend => .inr ((hended hend).resolve_left ?_)⟩
      rw [hopen]
      exact Bool.false_ne_true
    · exact hsame
  | _ => exact hsame

def Halfway (r : DirentReader) (ino : UInt64) (l₀ : List (Str × UInt64)) (tree : Tree) (c : Cursor) : Prop :=
  ∃ l, tree ino = some (.dir l) ∧ l₀ <+: l ∧ c.Stands r.toDirentFormat l ∧ (c.ended = true → l₀ <+: c.seen)

theorem Halfway.step {c : Cursor} (h : Halfway r ino l₀ tree c) (htree : Sound tree)
    (hans : Answers r.toDirentFormat tree q a tree') (hkept : ∀ name, q ≠ .unlink ino name)
    (hlive : tree' ino ≠ none) (hroom : ∀ size off, q = .readdir ino size off → 0 < size) :
    Halfway r ino l₀ tree' (c.step r ino (q, a)) := by
  obtain ⟨l, hdir, hpre, hstands, hended⟩ := h
  obtain ⟨l', hdir', hgrow⟩ := hans.grows hdir hkept hlive
  obtain ⟨hstands', hended'⟩ := hstands.step (htree.fits _ _ hdir) hdir hans hroom
  refine ⟨l', hdir', hpre.trans hgrow, hstands'.mono hgrow, fun hend => ?_⟩
  rcases hended' hend with heq | hseen
  · rw [heq] at hend ⊢
    exact hended hend
  · rw [hseen]
    exact hpre

theorem Session.halfway (hs : Sound tree₀) (hdir₀ : tree₀ ino = some (.dir l₀))
    (hsession : Session t r.toDirentFormat (mount T tree₀) log w)
    (hvalid : AllValid r.toDirentFormat tree₀ log) (hund : Undisturbed r.toDirentFormat tree₀ ino log) :
    ∃ tree, w = mount T tree ∧ Sound tree ∧ Halfway r ino l₀ tree (scan r ino log) := by
  have hstep : ∀ log q a tree tree', Run r.toDirentFormat tree₀ log tree → Sound tree →
      Answers r.toDirentFormat tree q a tree' →
      (Undisturbed r.toDirentFormat tree₀ ino log → Halfway r ino l₀ tree (scan r ino log)) →
      Undisturbed r.toDirentFormat tree₀ ino (log ++ [(q, a)]) →
      Halfway r ino l₀ tree' (scan r ino (log ++ [(q, a)])) := by
    intro log q a tree tree' hrun htree hans ih hund
    have hlast : (q, a) ∈ log ++ [(q, a)] := List.mem_append_right log (List.mem_singleton_self _)
    have hlive : tree' ino ≠ none := hund.stays _ tree' (List.prefix_refl _) (hrun.snoc hans)
    rw [scan_concat]
    exact (ih hund.of_append).step htree hans (fun name hq => hund.kept name a (hq ▸ hlast)) hlive
      fun size off hq => hund.room size off a (hq ▸ hlast)
  have hnil : Halfway r ino l₀ tree₀ (scan r ino []) :=
    ⟨l₀, hdir₀, List.prefix_refl l₀, ⟨List.nil_prefix, rfl⟩, Bool.noConfusion⟩
  obtain ⟨tree, -, hw, htree, hI⟩ := hsession.keeps hs (fun _ => hnil) hstep hvalid
  exact ⟨tree, hw, htree, hI hund⟩

/-- A reader that takes a directory page by page, while other requests come in between that do not unlink
from it, gets entries of the directory in their order and each once. When it is done it has got all that
were there when it began. A page that has room for every entry brings it further or to its end. -/
theorem listing_exactly_once (hs : Sound tree₀) (hdir₀ : tree₀ ino = some (.dir l₀))
    (hsession : Session t r.toDirentFormat (mount T tree₀) log w)
    (hvalid : AllValid r.toDirentFormat tree₀ log) (hund : Undisturbed r.toDirentFormat tree₀ ino log) :
    ((w.files.listing ino).map Prod.fst).Nodup ∧ (scan r ino log).seen <+: w.files.listing ino ∧
      ((scan r ino log).ended = true → l₀ <+: (scan r ino log).seen) ∧
      ∀ (size : ℕ) (off : Int64) junk a w', off.toInt = (scan r ino log).off →
        (∀ e ∈ w.files.listing ino, r.size e.1.length ≤ size) → 0 < size →
        (fuseserverOper r.toDirentFormat junk (.readdir ino size off)).Exec (World.serve t) w (some a) w' →
        (scan r ino (log ++ [(.readdir ino size off, a)])).ended = true ∨
          (scan r ino log).seen.length < (scan r ino (log ++ [(.readdir ino size off, a)])).seen.length := by
  obtain ⟨tree, rfl, htree, l, hdir, -, hstands, hended⟩ := hsession.halfway hs hdir₀ hvalid hund
  have hfits := htree.fits _ _ hdir
  dsimp only
  rw [listing_files htree hdir]
  refine ⟨hfits.2.1.distinct, hstands.1, hended, ?_⟩
  intro size off junk a w' hoff hroom hsize hexec
  have hpos : 0 ≤ off := by
    rw [Int64.le_iff_toInt_le, hoff]
    exact Int.natCast_nonneg _
  have hlive : tree ino ≠ none := by
    rw [hdir]
    exact Option.some_ne_none _
  obtain ⟨⟨ans, tree', hans, -, hanswers, -⟩, -⟩ :=
    (runs_fuseserverOper (q := .readdir ino size off) htree ⟨hlive, hpos⟩ t _ junk).result hexec
  cases hans
  rw [scan_concat]
  cases hanswers with
  | readdirOther hnot => exact absurd hdir (hnot l)
  | readdir hd =>
    rw [hdir] at hd
    cases hd
    unfold Cursor.step
    dsimp only
    split_ifs with hmine
    · rw [hoff, Int.toNat_natCast]
      exact (hstands.takePage hfits hsize).2.2 hroom
    · exact .inl (by simpa [hoff] using hmine)

end

/-- The entry at the front of a buffer in the layout of `struct fuse_dirent`. -/
def parseLayout (b : Str) : Option ((Str × UInt64) × ℕ × Str) :=
  let namelen := ofBigEndian ((b.drop 16).take 4).reverse
  if b.length < 24 ∨ b.length < libfuse.size namelen then none
  else some (((b.drop 24).take namelen, UInt64.ofNat (ofBigEndian (b.take 8).reverse)),
    ofBigEndian ((b.drop 8).take 8).reverse, b.drop (libfuse.size namelen))

theorem namelen_layout {name : Str} (h : name.length < 2 ^ 31) (ino : UInt64) (off : ℕ) {n : ℕ} (hn : 24 ≤ n)
    (rest : Str) :
    ofBigEndian ((((direntLayout name ino off ++ rest).take n).drop 16).take 4).reverse = name.length := by
  have hfield : (((direntLayout name ino off ++ rest).take n).drop 16).take 4 =
      (bigEndian 4 name.length).reverse := by
    rw [List.drop_take, List.take_take, Nat.min_eq_left (by omega)]
    simp [direntLayout, List.take_append, List.drop_append]
  rw [hfield, List.reverse_reverse, ofBigEndian_bigEndian, Nat.mod_eq_of_lt (by omega)]

def libfuseReader : DirentReader where
  toDirentFormat := libfuse
  parse := parseLayout
  size_pos n := by
    change 0 < (n + 31) / 8 * 8
    omega
  size_le n := Nat.div_mul_le_self _ _
  parse_dirent name ino off rest hname hoff := by
    have hlen : (direntLayout name ino off).length = libfuse.size name.length := libfuse.length_dirent _ _ _
    have hsize : 24 ≤ libfuse.size name.length := by
      change 24 ≤ (name.length + 31) / 8 * 8
      omega
    have hall : (direntLayout name ino off ++ rest).take (direntLayout name ino off ++ rest).length =
        direntLayout name ino off ++ rest := List.take_length
    have hn := namelen_layout hname ino off (n := (direntLayout name ino off ++ rest).length)
      (by rw [List.length_append]; omega) rest
    rw [hall] at hn
    change parseLayout (direntLayout name ino off ++ rest) = _
    unfold parseLayout
    dsimp only
    rw [hn, if_neg (by rw [List.length_append]; omega), ← hlen, List.drop_left]
    have hino : (direntLayout name ino off ++ rest).take 8 = (bigEndian 8 ino.toNat).reverse := by
      simp [direntLayout]
    have hnext : ((direntLayout name ino off ++ rest).drop 8).take 8 = (bigEndian 8 off).reverse := by
      simp [direntLayout]
    have hname : ((direntLayout name ino off ++ rest).drop 24).take name.length = name := by
      unfold direntLayout
      rw [List.append_assoc, List.append_assoc, List.drop_left' (by simp), List.take_left]
    have hlt := ino.toNat_lt
    rw [hino, hnext, hname, List.reverse_reverse, List.reverse_reverse, ofBigEndian_bigEndian,
      ofBigEndian_bigEndian, Nat.mod_eq_of_lt (by omega), Nat.mod_eq_of_lt (by omega), UInt64.ofNat_toNat]
  parse_cut name ino off n hname hn := by
    have hlen : (direntLayout name ino off).length = libfuse.size name.length := libfuse.length_dirent _ _ _
    change parseLayout ((direntLayout name ino off).take n) = none
    unfold parseLayout
    dsimp only
    refine if_pos ?_
    rw [List.length_take, hlen, Nat.min_eq_left hn.le]
    by_cases h24 : n < 24
    · exact .inl h24
    · have hnamelen := namelen_layout hname ino off (Nat.not_lt.1 h24) []
      rw [List.append_nil] at hnamelen
      rw [hnamelen]
      exact .inr hn

theorem listing_exactly_once_two : ∃ log w, log.map Prod.fst = [.mkdir 1 [97], .readdir 1 4096 0] ∧
    Session () libfuse (mount Unit rootTree) log w ∧
    (scan libfuseReader 1 log).seen <+: w.files.listing 1 ∧
    ((scan libfuseReader 1 log).ended = true → [] <+: (scan libfuseReader 1 log).seen) := by
  have hroot : rootTree 1 ≠ none := Option.some_ne_none _
  obtain ⟨log, w, hlog, hsession, hvalid⟩ := exists_session_two (q := .readdir 1 4096 0)
    fun a tree hrun => ⟨hrun.live (by simp) hroot, by decide⟩
  have hreq : ∀ q a, (q, a) ∈ log → q = .mkdir 1 [97] ∨ q = .readdir 1 4096 0 := by
    intro q a hmem
    have hmap := List.mem_map_of_mem (f := Prod.fst) hmem
    rw [hlog] at hmap
    simpa using hmap
  have hund : Undisturbed libfuseReader.toDirentFormat rootTree 1 log := by
    refine ⟨fun before tree hpre hrun => hrun.live (fun parent name hmem => ?_) hroot,
      fun name a hmem => ?_, fun size off a hmem => ?_⟩
    · obtain ⟨x, hx, heq⟩ := List.mem_map.1 hmem
      rcases hreq x.1 x.2 (hpre.subset hx) with h | h <;> rw [heq] at h <;> cases h
    · rcases hreq _ a hmem with h | h <;> cases h
    · rcases hreq _ a hmem with h | h <;> cases h
      decide
  obtain ⟨-, hseen, hend, -⟩ :=
    listing_exactly_once (r := libfuseReader) sound_rootTree rfl hsession hvalid hund
  exact ⟨log, w, hlog, hsession, hseen, hend⟩

end Yfs.Client.Fuse
