import Yfs.Client.Unlink
import Yfs.Hdfs.Effects
import Yfs.Hdfs.Paths

/-! `RecursiveLookup` with the indices it moves along the path, and what it finds: the fold of `lookup`
over the components. The other ways to take a path apart are compared with it. -/
namespace Yfs.Hdfs
open Yfs.Lib Yfs.Extent Yfs.Client

def names (path : Str) : List Str := (path.splitOn slash).filter fun c => c ≠ []

namespace NameNode

/-- The `while` loop of `RecursiveLookup`, at most `n` rounds of it. `none` is its `return false`;
otherwise `lastpos`, `found`, `ino` and `last` come back. -/
def lookupLoop (path : Str) : ℕ → ℕ → ℕ → Bool → UInt64 → UInt64 → M (Option (ℕ × Bool × UInt64 × UInt64))
  | 0, _, _, _, _, _ => pure none
  | n + 1, pos, lastpos, found, ino, last =>
    match find path [slash] pos with
    | none => pure (some (lastpos, found, ino, last))
    | some pos =>
      if pos ≠ lastpos then do
        let component := (path.drop lastpos).take (pos - lastpos)
        let (r, found, ino') ← lookup ino (cStr component) found ino
        if r = .ok ∧ found = true then lookupLoop path n (pos + 1) (pos + 1) found ino' ino
        else pure none
      else lookupLoop path n (pos + 1) (pos + 1) found ino last

/-- `RecursiveLookup` behind its loop: the rest of the path is a component as well. -/
def lookupTail (path : Str) : Option (ℕ × Bool × UInt64 × UInt64) → M (Option (UInt64 × UInt64))
  | none => pure none
  | some (lastpos, found, ino, last) =>
    if lastpos ≠ path.length then do
      let (r, found, ino') ← lookup ino (cStr (path.drop lastpos)) found ino
      if r = .ok ∧ found = true then pure (some (ino', ino)) else pure none
    else pure (some (ino, last))

/-- `RecursiveLookup(path, ino, last)`. The variable `found` is not initialised. -/
def recursiveLookupIndexed (found : Bool) (path : Str) : M (Option (UInt64 × UInt64)) := do
  if path.head? = some slash then
    let r ← lookupLoop path path.length 1 1 found 1 1
    lookupTail path r
  else pure none

/-- What stood in `found` before a lookup is seen only if the directory cannot be read. -/
theorem lookup_bind_found {α : Type} (parent : UInt64) (name : Str) (found : Bool) (out : UInt64)
    {g : YfsStatus × Bool × UInt64 → M α} (hg : g (.ioerr, found, out) = g (.ioerr, false, out)) :
    (lookup parent name found out) >>= g = (lookup parent name false out) >>= g := by
  refine congrArg (Prog.call (Call.getattr parent)) (funext fun attr => ?_)
  cases hdir : decide (attr.1 = .ok) && decide (attr.2.type = FileType.dir.code) with
  | false =>
    change (if _ then _ else _ : M _).bind g = (if _ then _ else _ : M _).bind g
    rw [if_neg (by rw [hdir]; exact Bool.false_ne_true), if_neg (by rw [hdir]; exact Bool.false_ne_true)]
  | true =>
    change (if _ then _ else _ : M _).bind g = (if _ then _ else _ : M _).bind g
    rw [if_pos hdir, if_pos hdir]
    refine congrArg (Prog.call (Call.get parent)) (funext fun reply => ?_)
    change (if _ then _ else _ : M _).bind g = (if _ then _ else _ : M _).bind g
    split_ifs
    · rfl
    · exact hg

theorem lookup_bind_walk {β : Type} {f : Bool → UInt64 → M β} {b : β} {g : β → M (Option (UInt64 × UInt64))}
    {ino : UInt64} {l : List Str} (hfail : g b = pure none)
    (hrest : ∀ found ino', f found ino' >>= g = walkLast ino' ino l) (component : Str) (found : Bool)
    (last : UInt64) :
    (do
      let (r, found, ino') ← lookup ino (cStr component) found ino
      if r = .ok ∧ found = true then f found ino' else pure b) >>= g =
      walkLast ino last (component :: l) := by
  have hnext : (fun p : YfsStatus × Bool × UInt64 =>
      (if p.1 = .ok ∧ p.2.1 = true then f p.2.1 p.2.2 else pure b).bind g) = fun p =>
      if p.1 = .ok ∧ p.2.1 = true then walkLast p.2.2 ino l else pure none := by
    funext p
    split_ifs
    · exact hrest p.2.1 p.2.2
    · exact hfail
  refine (Prog.bind_assoc _ _ _).trans ?_
  refine (congrArg (Prog.bind _) hnext).trans ?_
  exact lookup_bind_found ino (cStr component) found ino rfl

end NameNode

theorem names_append_slash (a b : Str) : names (a ++ slash :: b) = names a ++ names b := by
  rw [names, List.splitOn_append_cons_self, List.filter_append]
  rfl

theorem names_of_not_mem {c : Str} (h : slash ∉ c) : names c = if c = [] then [] else [c] := by
  rw [names, List.splitOn_eq_singleton h, List.filter_singleton]
  split_ifs with hc <;> simp [hc]

namespace NameNode

theorem components_eq_names {path : Str} (h : path.head? = some slash) : components path = names path := by
  obtain ⟨rest, rfl⟩ : ∃ rest, path = slash :: rest := by
    cases path with
    | nil => cases h
    | cons c rest => exact ⟨rest, by rw [Option.some.inj h]⟩
  have hnames := names_append_slash [] rest
  rw [List.nil_append] at hnames
  rw [hnames]
  rfl

/-- The loop and the tail behind it walk the components from `pos` on. Each round ends behind the next `/`,
so that the rest of the path gets shorter. -/
theorem lookupLoop_bind_tail (path : Str) {n pos : ℕ} (hpos : pos ≤ path.length)
    (hn : path.length - pos < n) (found : Bool) (ino last : UInt64) :
    lookupLoop path n pos pos found ino last >>= lookupTail path =
      walkLast ino last (names (path.drop pos)) := by
  induction n generalizing pos found ino last with
  | zero => omega
  | succ n ih =>
    have hlen : (path.take pos).length = pos := List.length_take_of_le hpos
    by_cases hslash : slash ∈ path.drop pos
    · obtain ⟨a, b, hsplit, ha⟩ := List.eq_append_cons_of_mem hslash
      have hpath : path = path.take pos ++ (a ++ slash :: b) := by rw [← hsplit, List.take_append_drop]
      have hfind : find path [slash] pos = some (pos + a.length) := by
        have h := find_sep (path.take pos) ha b
        rwa [← hpath, hlen] at h
      have hb : path.drop (pos + a.length + 1) = b := by
        rw [Nat.add_assoc, ← List.drop_drop, hsplit, ← List.drop_drop, List.drop_left]
        rfl
      have hshorter : pos + a.length + 1 ≤ path.length := by
        have h := congrArg List.length hsplit
        rw [List.length_drop, List.length_append, List.length_cons] at h
        omega
      have hrest := fun found ino last => ih hshorter (by omega) found ino last
      rw [hb] at hrest
      rw [lookupLoop, hfind, hsplit, names_append_slash, names_of_not_mem ha]
      dsimp only
      by_cases hempty : a = []
      · rw [if_neg (by simp [hempty]), if_pos hempty, hrest, List.nil_append]
      · rw [if_pos (by simpa using hempty), if_neg hempty, List.singleton_append]
        have hcomponent : (a ++ slash :: b).take (pos + a.length - pos) = a := by
          rw [Nat.add_sub_cancel_left, List.take_left]
        rw [hcomponent]
        exact lookup_bind_walk (g := lookupTail path)
          (f := fun found ino' => lookupLoop path n (pos + a.length + 1) (pos + a.length + 1) found ino' ino)
          rfl (fun found ino' => hrest found ino' ino) a found last
    · have hfind : find path [slash] pos = none := by
        have h := find_sep_none (path.take pos) hslash
        rwa [List.take_append_drop, hlen] at h
      rw [lookupLoop, hfind, names_of_not_mem hslash]
      change lookupTail path (some (pos, found, ino, last)) = _
      by_cases hend : path.drop pos = []
      · have heq : pos = path.length := le_antisymm hpos (List.drop_eq_nil_iff.1 hend)
        rw [if_pos hend, lookupTail, if_neg (by simp [heq])]
        rfl
      · have hne : pos ≠ path.length := fun heq => hend (List.drop_eq_nil_iff.2 heq.ge)
        rw [if_neg hend, lookupTail, if_pos hne]
        exact lookup_bind_found ino (cStr (path.drop pos)) found ino rfl

/-- The walk over indices is the walk over components. -/
theorem recursiveLookupIndexed_eq (found : Bool) (path : Str) :
    recursiveLookupIndexed found path = recursiveLookupLast path := by
  unfold recursiveLookupIndexed recursiveLookupLast
  split_ifs with habsolute
  · have hpos : 0 < path.length := by
      cases path with
      | nil => cases habsolute
      | cons c rest => exact Nat.succ_pos _
    exact lookupLoop_bind_tail path hpos (by omega) found 1 1
  · rfl

end NameNode

section
variable {T : Type} {t : T} {w : World T} {path : Str} {ino ino' last : UInt64} {dir : UInt64 → Option Str}

/-- `lookup` in `parent` finds `ino` under that name. -/
def Finds (t : T) (w : World T) (parent : UInt64) (name : Str) (ino : UInt64) : Prop :=
  ∀ found out, Shows t (lookup parent name found out) w (.ok, true, ino)

/-- The fold of `lookup` over a list of components: all are found, and the last one is `ino'`. -/
def Reaches (t : T) (w : World T) (ino : UInt64) : List Str → UInt64 → Prop
  | [], ino' => ino' = ino
  | c :: l, ino' => ∃ next, Finds t w ino c next ∧ Reaches t w next l ino'

theorem entryOf_build {l : List (Str × UInt64)} (hl : ∀ e ∈ l, semi ∉ e.1) (name : Str) :
    entryOf (some (Client.build l)) name = (l.find? fun e => e.1 = name).map Prod.snd := by
  rw [entryOf, Option.bind_some, findEntry_build hl, Option.map_map]
  congr 1
  funext e
  exact n2i_filename e.2

theorem lookup_eq (files : Files) (parent : UInt64) (name : Str) (out : UInt64) :
    files.lookup parent name out = match entryOf (files.dir parent) name with
      | some i => (.ok, true, i)
      | none => (if (files.dir parent).isSome then .noent else .ok, false, out) := by
  have hentry : entryOf (files.dir parent) name = (files.entry? parent name).map fun e => n2i e.2 := rfl
  rw [hentry, Files.lookup]
  cases files.entry? parent name <;> rfl

theorem finds_iff {parent : UInt64} {name : Str} :
    Finds t w parent name ino ↔ entryOf (w.files.dir parent) name = some ino := by
  constructor
  · intro h
    have hlookup := (h false 0).unique (shows_lookup t w parent name false 0)
    rw [lookup_eq] at hlookup
    cases hentry : entryOf (w.files.dir parent) name with
    | none =>
      rw [hentry] at hlookup
      exact absurd (congrArg (fun r => r.2.1) hlookup) Bool.false_ne_true.symm
    | some i =>
      rw [hentry] at hlookup
      cases hlookup
      rfl
  · intro h found out
    have hlookup := shows_lookup t w parent name found out
    rwa [lookup_eq, h] at hlookup

theorem reaches_iff {l : List Str} (hl : ∀ c ∈ l, (0 : UInt8) ∉ c) :
    Reaches t w ino l ino' ↔ resolve w.files.dir ino l = some ino' := by
  induction l generalizing ino with
  | nil => exact eq_comm.trans (Option.some_inj (a := ino)).symm
  | cons c l ih =>
    have hrest : ∀ ino, Reaches t w ino l ino' ↔ resolve w.files.dir ino l = some ino' := fun ino =>
      ih fun c hc => hl c (List.mem_cons_of_mem _ hc)
    simp only [Reaches, resolve, finds_iff, hrest, Option.bind_eq_some_iff,
      cStr_eq_self (hl c List.mem_cons_self)]

theorem resolveLast_eq_some {last' : UInt64} {l : List Str} :
    resolveLast dir ino last l = some (ino', last') ↔ resolve dir ino l = some ino' ∧
      if l = [] then last = last' else resolve dir ino l.dropLast = some last' := by
  induction l generalizing ino last with
  | nil => simp [resolveLast, resolve]
  | cons c l ih =>
    rw [if_neg (List.cons_ne_nil c l), resolveLast, resolve]
    cases hentry : entryOf (dir ino) (cStr c) with
    | none => simp
    | some i =>
      rw [Option.bind_some, Option.bind_some, ih]
      cases l with
      | nil => simp [resolve]
      | cons d l =>
        have hfront : resolve dir ino (c :: (d :: l).dropLast) = resolve dir i (d :: l).dropLast := by
          rw [resolve, hentry, Option.bind_some]
        rw [if_neg (List.cons_ne_nil d l), List.dropLast_cons_cons, hfront]

theorem map_fst_resolveLast (dir : UInt64 → Option Str) (ino last : UInt64) (l : List Str) :
    (resolveLast dir ino last l).map Prod.fst = resolve dir ino l := by
  induction l generalizing ino last with
  | nil => rfl
  | cons c l ih =>
    rw [resolveLast, resolve, Option.map_bind]
    congr 1
    funext i
    exact ih i ino

theorem resolveLast_root {l : List Str} : resolveLast dir 1 1 l = some (ino, last) ↔
    resolve dir 1 l = some ino ∧ resolve dir 1 l.dropLast = some last := by
  rw [resolveLast_eq_some]
  cases l with
  | nil => simp [resolve]
  | cons c l => rw [if_neg (List.cons_ne_nil c l)]

private theorem shows_walkLast (t : T) (w : World T) (l : List Str) (ino last : UInt64) :
    Shows t (NameNode.walkLast ino last l) w (resolveLast w.files.dir ino last l) := by
  induction l generalizing ino last with
  | nil => exact shows_pure t w _
  | cons c l ih =>
    apply (shows_lookup t w ino (cStr c) false ino).bind
    rw [lookup_eq, resolveLast]
    cases entryOf (w.files.dir ino) (cStr c) with
    | none =>
      dsimp only [Option.bind_none]
      rw [if_neg fun h => Bool.false_ne_true h.2]
      exact shows_pure t w _
    | some i => exact ih i ino

theorem shows_recursiveLookupLast (t : T) (w : World T) (habsolute : path.head? = some slash) :
    Shows t (NameNode.recursiveLookupLast path) w (resolveLast w.files.dir 1 1 (names path)) := by
  rw [NameNode.recursiveLookupLast, if_pos habsolute, NameNode.components_eq_names habsolute]
  exact shows_walkLast t w (names path) 1 1

theorem mem_of_mem_names {c : Str} (h : c ∈ names path) : c ⊆ path :=
  subset_of_mem_splitOn (List.mem_of_mem_filter h)

/-- `RecursiveLookup` succeeds exactly if the fold of `lookup` over the components of an absolute path finds
all of them, and gives back the inum of all of them and that of all but the last. -/
theorem recursiveLookup_folds (t : T) (w : World T) (found : Bool) (path : Str) (hnul : (0 : UInt8) ∉ path) :
    ∃ r, Shows t (NameNode.recursiveLookupIndexed found path) w r ∧
      (path.head? ≠ some slash → r = none) ∧
      (path.head? = some slash → (r ≠ none ↔ ∃ ino, Reaches t w 1 (names path) ino) ∧
        ∀ ino last, r = some (ino, last) →
          Reaches t w 1 (names path) ino ∧ Reaches t w 1 (names path).dropLast last) := by
  rw [NameNode.recursiveLookupIndexed_eq]
  by_cases habsolute : path.head? = some slash
  · have hzero : ∀ c ∈ names path, (0 : UInt8) ∉ c := fun c hc h => hnul (mem_of_mem_names hc h)
    have hfront : ∀ c ∈ (names path).dropLast, (0 : UInt8) ∉ c := fun c hc =>
      hzero c (List.mem_of_mem_dropLast hc)
    refine ⟨_, shows_recursiveLookupLast t w habsolute, fun h => absurd habsolute h, fun _ => ⟨?_, ?_⟩⟩
    · simp only [reaches_iff hzero]
      constructor
      · intro hsome
        obtain ⟨⟨ino, last⟩, hr⟩ := Option.ne_none_iff_exists'.1 hsome
        exact ⟨ino, (resolveLast_root.1 hr).1⟩
      · rintro ⟨ino, hino⟩ hnone
        rw [← map_fst_resolveLast w.files.dir 1 1, hnone] at hino
        cases hino
    · intro ino last hr
      rw [reaches_iff hzero, reaches_iff hfront]
      exact resolveLast_root.1 hr
  · rw [NameNode.recursiveLookupLast, if_neg habsolute]
    exact ⟨none, shows_pure t w _, fun _ => rfl, fun h => absurd h habsolute⟩

end

/-- The root with a directory `d` and a file `f`, and a file `a` in `d`. -/
def twoLevels : World Unit :=
  ⟨fun id => if id = 1 then some (FileType.dir.code, Client.build [([100], 2), ([102], 4)])
    else if id = 2 then some (FileType.dir.code, Client.build [([97], 3)])
    else if id = 3 ∨ id = 4 then some (FileType.file.code, []) else none, fun _ => none⟩

/-- The walk along `/d//a`. -/
theorem recursiveLookup_folds_nested :
    Shows () (NameNode.recursiveLookupIndexed true [slash, 100, slash, slash, 97]) twoLevels
      (some (3, 2)) := by
  have hfirst : Finds () twoLevels 1 [100] 2 := finds_iff.2 (by decide)
  have hsecond : Finds () twoLevels 2 [97] 3 := finds_iff.2 (by decide)
  have hnames : names [slash, 100, slash, slash, 97] = [[100], [97]] := by decide
  obtain ⟨r, hshows, -, habsolute⟩ :=
    recursiveLookup_folds () twoLevels true [slash, 100, slash, slash, 97] (by decide)
  obtain ⟨hsome, hfound⟩ := habsolute rfl
  rw [hnames] at hsome hfound
  obtain ⟨⟨ino, last⟩, rfl⟩ :=
    Option.ne_none_iff_exists'.1 (hsome.2 ⟨3, 2, hfirst, 3, hsecond, rfl⟩)
  obtain ⟨⟨next, hnext, next', hnext', rfl⟩, next'', hlast, rfl⟩ := hfound ino last rfl
  cases (hnext false 0).unique (hfirst false 0)
  cases (hnext' false 0).unique (hsecond false 0)
  cases (hlast false 0).unique (hfirst false 0)
  exact hshows

section
variable {path : Str}

private theorem names_of_slashes {s : Str} (h : ∀ c ∈ s, c = slash) : names s = [] := by
  induction s with
  | nil => rfl
  | cons c s ih =>
    have hnames := names_append_slash [] s
    rw [List.nil_append] at hnames
    rw [h c List.mem_cons_self, hnames, ih fun c hc => h c (List.mem_cons_of_mem _ hc)]
    rfl

theorem names_append_slashes (a : Str) {s : Str} (h : ∀ c ∈ s, c = slash) : names (a ++ s) = names a := by
  cases s with
  | nil => rw [List.append_nil]
  | cons c s =>
    rw [h c List.mem_cons_self, names_append_slash, names_of_slashes fun c hc =>
      h c (List.mem_cons_of_mem _ hc), List.append_nil]

theorem stripSlashes_append (path : Str) : ∃ s, path = stripSlashes path ++ s ∧ ∀ c ∈ s, c = slash := by
  refine ⟨(path.reverse.takeWhile fun c => c = slash).reverse, ?_, fun c hc => ?_⟩
  · rw [stripSlashes, ← List.reverse_append, List.takeWhile_append_dropWhile, List.reverse_reverse]
  · simpa using List.mem_takeWhile_imp (List.mem_reverse.1 hc)

theorem dropWhile_cons_of_mem {p : UInt8 → Bool} {l : Str} {c : UInt8} (hc : c ∈ l) (hp : p c = false) :
    ∃ a r, l.dropWhile p = a :: r ∧ p a = false := by
  cases hdrop : l.dropWhile p with
  | nil =>
    have hall := List.dropWhile_eq_nil_iff.1 hdrop c hc
    rw [hp] at hall
    cases hall
  | cons a r =>
    have hhead := List.head?_dropWhile_not p l
    rw [hdrop] at hhead
    exact ⟨a, r, rfl, hhead⟩

theorem baseName_stripSlashes (h : stripSlashes path ≠ []) : baseName (stripSlashes path) ≠ [] := by
  intro hnil
  have hhead := List.head?_dropWhile_not (fun c => decide (c = slash)) path.reverse
  unfold stripSlashes at h hnil
  rw [baseName, List.reverse_eq_nil_iff, List.reverse_reverse] at hnil
  cases hdrop : path.reverse.dropWhile fun c => decide (c = slash) with
  | nil => exact h (by rw [hdrop]; rfl)
  | cons a r =>
    rw [hdrop] at hhead hnil
    rw [List.takeWhile_cons_of_pos (by simpa using hhead)] at hnil
    cases hnil

private theorem split_upToSlash {q : Str} (h : slash ∈ q) :
    ∃ u, upToSlash q = u ++ [slash] ∧ q = u ++ slash :: baseName q := by
  obtain ⟨a, r, hdrop, ha⟩ := dropWhile_cons_of_mem (p := fun c => decide (c ≠ slash))
    (List.mem_reverse.2 h) (by simp)
  obtain rfl : a = slash := by simpa using ha
  have hq : (q.reverse.takeWhile fun c => decide (c ≠ slash)) ++ slash :: r = q.reverse := by
    rw [← hdrop, List.takeWhile_append_dropWhile]
  refine ⟨r.reverse, ?_, ?_⟩
  · rw [upToSlash, if_pos h, hdrop, List.reverse_cons]
  · have hrev := congrArg List.reverse hq
    rw [List.reverse_append, List.reverse_cons, List.reverse_reverse] at hrev
    rw [baseName, ← List.singleton_append, ← List.append_assoc, hrev]

private theorem slash_not_mem_baseName (path : Str) : slash ∉ baseName path := by
  intro h
  simpa using List.mem_takeWhile_imp (List.mem_reverse.1 h)

theorem names_upToSlash (habsolute : path.head? = some slash) (hne : names path ≠ []) :
    (upToSlash (stripSlashes path)).head? = some slash ∧
      names (upToSlash (stripSlashes path)) = (names path).dropLast := by
  obtain ⟨s, hpath, hs⟩ := stripSlashes_append path
  have hnames : names path = names (stripSlashes path) := by
    rw [← names_append_slashes (stripSlashes path) hs, ← hpath]
  have hstripped : stripSlashes path ≠ [] := by
    intro hnil
    rw [hnames, hnil] at hne
    exact hne rfl
  have hhead : (stripSlashes path).head? = some slash := by
    rw [hpath, List.head?_append_of_ne_nil _ hstripped] at habsolute
    exact habsolute
  obtain ⟨u, hu, hq⟩ := split_upToSlash (List.mem_of_mem_head? hhead)
  have hbase := baseName_stripSlashes hstripped
  constructor
  · rw [hq] at hhead
    rw [hu]
    cases u with
    | nil => rfl
    | cons c u => exact hhead
  · rw [hu, names_append_slash, hnames, hq, names_append_slash,
      names_of_not_mem (slash_not_mem_baseName _), if_neg hbase, List.dropLast_concat]
    exact List.append_nil _

end

section
variable {T : Type} {t : T} {w : World T} {path : Str} {ino last : UInt64}

private theorem shows_walk (t : T) (w : World T) (l : List Str) (ino : UInt64) :
    Shows t (NameNode.walk ino l) w (resolve w.files.dir ino l) := by
  induction l generalizing ino with
  | nil => exact shows_pure t w _
  | cons c l ih =>
    apply (shows_lookup t w ino (cStr c) false ino).bind
    rw [lookup_eq, resolve]
    cases entryOf (w.files.dir ino) (cStr c) with
    | none =>
      dsimp only [Option.bind_none]
      rw [if_neg fun h => Bool.false_ne_true h.2]
      exact shows_pure t w _
    | some i => exact ih i

theorem shows_recursiveLookup (t : T) (w : World T) (path : Str) :
    Shows t (NameNode.recursiveLookup path) w (resolvePath w.files.dir path) := by
  unfold NameNode.recursiveLookup resolvePath
  split_ifs
  · exact shows_walk t w (NameNode.components path) 1
  · exact shows_pure t w none

theorem resolvePath_eq {dir : UInt64 → Option Str} (habsolute : path.head? = some slash) :
    resolvePath dir path = resolve dir 1 (names path) := by
  rw [resolvePath, if_pos habsolute, NameNode.components_eq_names habsolute]

/-- `RecursiveLookupParent` finds the directory of the walk. The name behind the last `/` leads on to the
inum of the walk exactly if it is not empty, or if an entry without a name happens to have that inum. -/
theorem parent_and_name_iff (habsolute : path.head? = some slash) (hne : names path ≠ [])
    (hfound : Shows t (NameNode.recursiveLookupLast path) w (some (ino, last))) :
    Shows t (NameNode.recursiveLookupParent path) w (some last) ∧
      Finds t w last (cStr (baseName path)) ino ↔
    baseName path ≠ [] ∨ entryOf (w.files.dir last) [] = some ino := by
  have hwalk := (shows_recursiveLookupLast t w habsolute).unique hfound
  obtain ⟨hhead, hnames⟩ := names_upToSlash habsolute hne
  have hparent : Shows t (NameNode.recursiveLookupParent path) w (some last) := by
    rw [← (resolveLast_root.1 hwalk).2, ← hnames, ← resolvePath_eq hhead]
    exact shows_recursiveLookup t w _
  rw [and_iff_right hparent, finds_iff]
  by_cases hbase : baseName path = []
  · rw [hbase]
    exact (or_iff_right fun h => h rfl).symm
  · refine iff_of_true ?_ (.inl hbase)
    rcases entryOf_of_resolveLast hwalk with ⟨hnil, -⟩ | ⟨c, hc, hentry⟩
    · exact absurd hnil hne
    · have hlast := NameNode.getLast?_components habsolute hbase
      rw [NameNode.components_eq_names habsolute, hc] at hlast
      rwa [Option.some.inj hlast] at hentry

end

/-- The directory and the name of `/d/a`. -/
theorem parent_and_name_iff_nested :
    Shows () (NameNode.recursiveLookupParent [slash, 100, slash, 97]) twoLevels (some 2) ∧
      Finds () twoLevels 2 (cStr (baseName [slash, 100, slash, 97])) 3 := by
  have habsolute : [slash, 100, slash, 97].head? = some slash := rfl
  have hfound := shows_recursiveLookupLast () twoLevels habsolute
  have hwalk : resolveLast twoLevels.files.dir 1 1 (names [slash, 100, slash, 97]) = some (3, 2) := by decide
  rw [hwalk] at hfound
  exact (parent_and_name_iff habsolute (by decide) hfound).2 (.inl (by decide))

/-- `/a/` is found, but the name behind its last `/` is not there. -/
theorem parent_and_name_trailing :
    Shows () (NameNode.recursiveLookupLast [slash, 97, slash]) (rootOf [([97], 2)]) (some (2, 1)) ∧
      Shows () (lookup 1 (cStr (baseName [slash, 97, slash])) false 0) (rootOf [([97], 2)])
        (.noent, false, 0) ∧
      ¬(Shows () (NameNode.recursiveLookupParent [slash, 97, slash]) (rootOf [([97], 2)]) (some 1) ∧
        Finds () (rootOf [([97], 2)]) 1 (cStr (baseName [slash, 97, slash])) 2) := by
  have hwalk : resolveLast (rootOf [([97], 2)]).files.dir 1 1 (names [slash, 97, slash]) = some (2, 1) := by
    decide
  refine ⟨?_, ?_, fun h => ?_⟩
  · rw [← hwalk]
    exact shows_recursiveLookupLast () _ rfl
  · exact shows_lookup () (rootOf [([97], 2)]) 1 [] false 0
  · have hentry := finds_iff.1 h.2
    revert hentry
    decide

end Yfs.Hdfs
