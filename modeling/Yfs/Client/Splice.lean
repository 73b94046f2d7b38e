import Yfs.Client.Directory

/-! How `unlink` and `Rename` cut an entry out of the text of a directory: they search for the
name as a substring and erase from there. -/
namespace Yfs.Client

def npos : ℕ := 2 ^ 64 - 1

def findStr (name : Str) : Str → Option ℕ
  | [] => if name = [] then some 0 else none
  | c :: text => if name.isPrefixOf (c :: text) then some 0 else (findStr name text).map (· + 1)

def find (text name : Str) (pos : ℕ) : Option ℕ :=
  if pos ≤ text.length then (findStr name (text.drop pos)).map (· + pos) else none

/-- `text.erase(pos, n)`; `none` is the exception behind the end of the string. -/
def erase (text : Str) (pos n : ℕ) : Option Str :=
  if pos ≤ text.length then some (text.take pos ++ text.drop (pos + n)) else none

/-- How `unlink` takes the entry of `name` out of a directory. -/
def unlinkText (dirList name : Str) (target : UInt64) : Option Str :=
  let beginPos := (find dirList name 0).getD npos
  let targetLen := name.length + 1 + (filename target).length
  let rest :=
    if beginPos = 0 ∧ dirList.length = beginPos + targetLen then erase dirList beginPos targetLen
    else if dirList.length = (beginPos + targetLen) % 2 ^ 64 then erase dirList (beginPos - 1) (targetLen + 1)
    else erase dirList beginPos (targetLen + 1)
  rest.map fun l => if l.head? = some 0 then [] else l

def position (p : Option ℕ) : ℕ := p.getD npos % 2 ^ 32

/-- How `Rename` takes the entry of `srcName` out of a directory. Positions are kept in
`unsigned int`s, so none of them ever equals `npos`. -/
def renameText (srcEntry srcName : Str) : Option Str :=
  let srcBegin := position (find srcEntry srcName 0)
  let firstDot := position (find srcEntry [semi] srcBegin)
  let secondDot := position (find srcEntry [semi] ((firstDot + 1) % 2 ^ 32))
  let len := (secondDot + 2 ^ 32 - srcBegin) % 2 ^ 32
  if srcBegin ≠ 0 then erase srcEntry (srcBegin - 1) len else erase srcEntry srcBegin len

def startOf (pre : List (Str × Str)) : ℕ := if pre = [] then 0 else (render pre).length + 1

theorem startOf_nil : startOf [] = 0 := if_pos rfl

def ownStart (text name : Str) : ℕ := startOf ((entries text).takeWhile fun e => e.1 ≠ name)

theorem ownStart_render {pre post : List (Str × Str)} {e : Str × Str}
    (hplain : ∀ a ∈ pre ++ e :: post, Plain a)
    (hpre : ∀ a ∈ pre, a.1 ≠ e.1) : ownStart (render (pre ++ e :: post)) e.1 = startOf pre := by
  rw [ownStart, entries_render hplain, List.takeWhile_append_of_pos fun a ha => by simpa using hpre a ha,
    List.takeWhile_cons_of_neg (by simp), List.append_nil]

theorem render_append {pre post : List (Str × Str)} (hpre : pre ≠ []) (hpost : post ≠ []) :
    render (pre ++ post) = render pre ++ semi :: render post := by
  induction pre with
  | nil => contradiction
  | cons e pre ih =>
    by_cases hnil : pre = []
    · rw [hnil, List.singleton_append, render_cons e hpost, render]
    · rw [List.cons_append, render_cons e (by simp [hnil]), ih hnil, render_cons e hnil, List.append_assoc]
      rfl

def before (pre : List (Str × Str)) : Str := if pre = [] then [] else render pre ++ [semi]

def after (post : List (Str × Str)) : Str := if post = [] then [] else semi :: render post

theorem after_nil : after [] = [] := if_pos rfl

theorem length_before (pre : List (Str × Str)) : (before pre).length = startOf pre := by
  unfold before startOf
  split_ifs <;> simp

theorem render_middle (pre : List (Str × Str)) (e : Str × Str) (post : List (Str × Str)) :
    render (pre ++ e :: post) = before pre ++ (entry e ++ after post) := by
  have htail : render (e :: post) = entry e ++ after post := by
    unfold after
    by_cases hpost : post = []
    · rw [if_pos hpost, hpost, List.append_nil, render]
    · rw [if_neg hpost, render_cons e hpost]
  unfold before
  by_cases hpre : pre = []
  · rw [if_pos hpre, hpre, List.nil_append, List.nil_append, htail]
  · rw [if_neg hpre, render_append hpre (List.cons_ne_nil e post), htail, List.append_assoc]
    rfl

theorem length_render_middle (pre : List (Str × Str)) (e : Str × Str) (post : List (Str × Str)) :
    (render (pre ++ e :: post)).length = startOf pre + ((entry e).length + (after post).length) := by
  rw [render_middle, List.length_append, List.length_append, length_before]

theorem length_entry (e : Str × Str) : (entry e).length = e.1.length + 1 + e.2.length := by
  simp [entry]
  omega

theorem erase_append (a b c : Str) {n : ℕ} (hn : b.length = n) :
    erase (a ++ (b ++ c)) a.length n = some (a ++ c) := by
  subst hn
  rw [erase, if_pos (by simp), List.take_left, ← List.drop_drop, List.drop_left, List.drop_left]

theorem head_render_cons {e : Str × Str} (h : (0 : UInt8) ∉ e.1) (l : List (Str × Str)) :
    (render (e :: l)).head? ≠ some 0 := by
  have hentry : (entry e).head? ≠ some 0 := by
    intro hzero
    cases hname : e.1 with
    | nil =>
      rw [entry, hname] at hzero
      exact absurd (Option.some.inj hzero) (by decide)
    | cons c name =>
      rw [entry, hname] at hzero
      exact h (by rw [hname, Option.some.inj hzero]; exact List.mem_cons_self)
  by_cases hl : l = []
  · subst hl
    exact hentry
  · rw [render_cons e hl, List.head?_append, Option.or_of_isSome]
    · exact hentry
    · simpa using entry_ne_nil e

theorem head_render {l : List (Str × Str)} (h : ∀ e ∈ l, (0 : UInt8) ∉ e.1) : (render l).head? ≠ some 0 := by
  cases l with
  | nil => simp [render]
  | cons e l => exact head_render_cons (h e List.mem_cons_self) l

theorem unlinkText_found {pre post : List (Str × Str)} {e : Str × Str} {target : UInt64}
    (hfind : find (render (pre ++ e :: post)) e.1 0 = some (startOf pre)) (hnum : filename target = e.2)
    (hlen : pre = [] ∨ (render (pre ++ e :: post)).length < 2 ^ 64) :
    unlinkText (render (pre ++ e :: post)) e.1 target =
      some (if (render (pre ++ post)).head? = some 0 then [] else render (pre ++ post)) := by
  have hsize := length_render_middle pre e post
  have hentry : e.1.length + 1 + (filename target).length = (entry e).length := by
    rw [hnum, length_entry]
  simp only [unlinkText, hfind, Option.getD_some]
  rw [hentry]
  by_cases hpost : post = []
  · subst hpost
    rw [after_nil, List.length_nil, Nat.add_zero] at hsize
    by_cases hpre : pre = []
    · -- the only entry
      subst hpre
      rw [if_pos ⟨rfl, hsize⟩]
      have hcut := erase_append [] (entry e) [] rfl
      rw [List.append_nil] at hcut
      rw [show erase (render ([] ++ [e])) (startOf []) (entry e).length = some [] from hcut]
      rfl
    · -- the last entry goes together with the `;` before it
      have hstart : startOf pre = (render pre).length + 1 := if_neg hpre
      have hlen := hlen.resolve_left hpre
      have hcut := erase_append (render pre) (semi :: entry e) [] (List.length_cons ..)
      rw [if_neg (by rw [hstart]; omega), if_pos (by rw [Nat.mod_eq_of_lt (by omega)]; exact hsize), hstart,
        Nat.add_sub_cancel, render_append hpre (List.cons_ne_nil e []), render,
        ← List.append_nil (semi :: entry e)]
      rw [hcut, List.append_nil, List.append_nil, Option.map_some]
  · -- the others go together with the `;` behind them
    have hafter : after post = semi :: render post := if_neg hpost
    rw [hafter, List.length_cons] at hsize
    have hmod := Nat.mod_le (startOf pre + (entry e).length) (2 ^ 64)
    rw [if_neg (by omega), if_neg (by omega), render_middle, hafter,
      List.append_cons, ← length_before, erase_append (before pre) (entry e ++ [semi]) (render post)
      (by simp)]
    have hglue : before pre ++ render post = render (pre ++ post) := by
      unfold before
      by_cases hpre : pre = []
      · rw [if_pos hpre, hpre]
        rfl
      · rw [if_neg hpre, render_append hpre hpost, List.append_assoc]
        rfl
    rw [hglue, Option.map_some]

/-- `unlink` takes out just the entry if the search finds the entry itself and its number is
written the way `filename` writes it. -/
theorem unlinkText_render {pre post : List (Str × Str)} {e : Str × Str} {target : UInt64}
    (hfind : find (render (pre ++ e :: post)) e.1 0 = some (startOf pre)) (hnum : filename target = e.2)
    (hlen : pre = [] ∨ (render (pre ++ e :: post)).length < 2 ^ 64)
    (hzero : ∀ e' ∈ pre ++ post, (0 : UInt8) ∉ e'.1) :
    unlinkText (render (pre ++ e :: post)) e.1 target = some (render (pre ++ post)) := by
  rw [unlinkText_found hfind hnum hlen, if_neg (head_render hzero)]

private theorem findStr_append (name text : Str) : findStr name (name ++ text) = some 0 := by
  cases name with
  | nil => cases text <;> rfl
  | cons c name =>
    rw [List.cons_append, findStr, if_pos]
    rw [List.isPrefixOf_iff_prefix, ← List.cons_append]
    exact List.prefix_append _ _

theorem find_first (e : Str × Str) (post : List (Str × Str)) : find (render (e :: post)) e.1 0 = some 0 := by
  have htext : render (e :: post) = e.1 ++ (semi :: e.2 ++ after post) := by
    rw [← List.nil_append (e :: post), render_middle, entry]
    simp [before]
  rw [find, if_pos (Nat.zero_le _), List.drop_zero, htext, findStr_append]
  rfl

private theorem findStr_sep {sep : UInt8} {a : Str} (h : sep ∉ a) (b : Str) :
    findStr [sep] (a ++ sep :: b) = some a.length := by
  induction a with
  | nil => simp [findStr]
  | cons c a ih =>
    obtain ⟨hc, hrest⟩ := not_or.1 (List.mem_cons.not.1 h)
    rw [List.cons_append, findStr, if_neg (by simpa using hc), ih hrest]
    rfl

private theorem findStr_sep_none {sep : UInt8} {a : Str} (h : sep ∉ a) : findStr [sep] a = none := by
  induction a with
  | nil => rfl
  | cons c a ih =>
    obtain ⟨hc, hrest⟩ := not_or.1 (List.mem_cons.not.1 h)
    rw [findStr, if_neg (by simpa using hc), ih hrest]
    rfl

theorem find_sep {sep : UInt8} (p : Str) {a : Str} (h : sep ∉ a) (b : Str) :
    find (p ++ (a ++ sep :: b)) [sep] p.length = some (p.length + a.length) := by
  rw [find, if_pos (by simp), List.drop_left, findStr_sep h, Option.map_some, Nat.add_comm]

theorem find_sep_none {sep : UInt8} (p : Str) {a : Str} (h : sep ∉ a) :
    find (p ++ a) [sep] p.length = none := by
  rw [find, if_pos (by simp), List.drop_left, findStr_sep_none h]
  rfl

theorem position_some {p : ℕ} (h : p < 2 ^ 32) : position (some p) = p := by
  rw [position, Option.getD_some, Nat.mod_eq_of_lt h]

theorem renameText_erase {text name p n q z : Str} (htext : text = p ++ (n ++ semi :: (q ++ semi :: z)))
    (hfind : find text name 0 = some p.length) (hn : semi ∉ n) (hq : semi ∉ q)
    (hlen : text.length < 2 ^ 32 - 1) :
    renameText text name = erase text (p.length - 1) (n.length + 1 + q.length) := by
  have hsize : text.length = p.length + (n.length + (q.length + z.length + 1) + 1) := by
    rw [htext]
    simp only [List.length_append, List.length_cons]
    omega
  have hfirst : find text [semi] p.length = some (p.length + n.length) := htext ▸ find_sep p hn _
  have hsecond : find text [semi] (p.length + n.length + 1) = some (p.length + n.length + 1 + q.length) := by
    have hpos : (p ++ (n ++ [semi])).length = p.length + n.length + 1 := by
      rw [List.length_append, List.length_append, List.length_singleton, Nat.add_assoc]
    have hsplit : text = (p ++ (n ++ [semi])) ++ (q ++ semi :: z) := by
      rw [htext]
      simp
    rw [hsplit, ← hpos, find_sep _ hq]
  have hnext : (p.length + n.length + 1) % 2 ^ 32 = p.length + n.length + 1 := Nat.mod_eq_of_lt (by omega)
  have hcount : (p.length + n.length + 1 + q.length + 2 ^ 32 - p.length) % 2 ^ 32 =
      n.length + 1 + q.length := by
    omega
  simp only [renameText]
  rw [hfind, position_some (by omega), hfirst, position_some (by omega), hnext, hsecond,
    position_some (by omega), hcount]
  by_cases hstart : p.length = 0
  · rw [if_neg (not_not.2 hstart), hstart]
  · rw [if_pos hstart]

/-- It takes the character before the name with it and leaves the last one before the second `;`. -/
theorem renameText_cut {text name p n q z : Str} {x c : UInt8}
    (htext : text = (p ++ [x]) ++ (n ++ semi :: ((q ++ [c]) ++ semi :: z)))
    (hfind : find text name 0 = some (p ++ [x]).length) (hn : semi ∉ n) (hq : semi ∉ q ++ [c])
    (hlen : text.length < 2 ^ 32 - 1) : renameText text name = some (p ++ c :: semi :: z) := by
  have hsplit : text = p ++ ((x :: (n ++ semi :: q)) ++ (c :: semi :: z)) := by
    rw [htext]
    simp
  have hcut : (x :: (n ++ semi :: q)).length = n.length + 1 + (q ++ [c]).length := by
    simp only [List.length_cons, List.length_append, List.length_nil]
    omega
  have hpos : (p ++ [x]).length - 1 = p.length := by simp
  rw [renameText_erase htext hfind hn hq hlen, hpos, hsplit, erase_append p _ _ hcut]

/-- At the start there is no such character. -/
theorem renameText_cut_start {text name n q z : Str} (htext : text = n ++ semi :: (q ++ semi :: z))
    (hfind : find text name 0 = some 0) (hn : semi ∉ n) (hq : semi ∉ q)
    (hlen : text.length < 2 ^ 32 - 1) : renameText text name = some (semi :: z) := by
  have hsplit : text = [] ++ ((n ++ semi :: q) ++ (semi :: z)) := by
    rw [htext]
    simp
  have hcut : (n ++ semi :: q).length = n.length + 1 + q.length := by
    simp only [List.length_cons, List.length_append]
    omega
  rw [renameText_erase (p := []) htext hfind hn hq hlen, hsplit]
  exact erase_append [] _ _ hcut

section
variable {pre post : List (Str × Str)} {e : Str × Str}

/-- `Rename` takes out the last entry: the second `;` is not found, and what is erased reaches over the
end, -/
theorem renameText_last (hplain : Plain e) (hfind : find (render (pre ++ [e])) e.1 0 = some (startOf pre))
    (hlen : (render (pre ++ [e])).length < 2 ^ 32 - 1) :
    renameText (render (pre ++ [e])) e.1 = some (render pre) := by
  have hsize := length_render_middle pre e []
  have hentry := length_entry e
  have htext : render (pre ++ [e]) = before pre ++ (e.1 ++ semi :: e.2) := by
    rw [render_middle, entry, after_nil, List.append_nil]
  have hfirst : find (render (pre ++ [e])) [semi] (startOf pre) = some (startOf pre + e.1.length) := by
    rw [htext, ← length_before]
    exact find_sep (before pre) hplain.1 _
  have hsecond : find (render (pre ++ [e])) [semi] (startOf pre + e.1.length + 1) = none := by
    have hpos : (before pre ++ (e.1 ++ [semi])).length = startOf pre + e.1.length + 1 := by
      rw [List.length_append, length_before, List.length_append, List.length_singleton, Nat.add_assoc]
    have hsplit : render (pre ++ [e]) = (before pre ++ (e.1 ++ [semi])) ++ e.2 := by
      rw [htext]
      simp
    rw [hsplit, ← hpos, find_sep_none _ hplain.2.1]
  have hnext : (startOf pre + e.1.length + 1) % 2 ^ 32 = startOf pre + e.1.length + 1 :=
    Nat.mod_eq_of_lt (by omega)
  have hcount : (position none + 2 ^ 32 - startOf pre) % 2 ^ 32 = 2 ^ 32 - 1 - startOf pre := by
    rw [show position none = 2 ^ 32 - 1 from rfl]
    omega
  simp only [renameText]
  rw [hfind, position_some (by omega), hfirst, position_some (by omega), hnext, hsecond, hcount]
  by_cases hpre : pre = []
  · subst hpre
    rw [startOf_nil, if_neg (not_not.2 rfl), erase, if_pos (Nat.zero_le _), List.drop_eq_nil_of_le (by omega)]
    rfl
  · have hstart : startOf pre = (render pre).length + 1 := if_neg hpre
    rw [if_pos (by omega), hstart, erase, if_pos (by omega), List.drop_eq_nil_of_le (by omega),
      Nat.add_sub_cancel, render_append hpre (List.cons_ne_nil e []), List.take_left, List.append_nil]

/-- and leaves of an entry between two others a digit, at the end of the number before it. -/
theorem renameText_middle {a : Str × Str} (hpost : post ≠ []) (hplain : Plain e)
    (hfind : find (render (pre ++ [a] ++ e :: post)) e.1 0 = some (startOf (pre ++ [a])))
    (hlen : (render (pre ++ [a] ++ e :: post)).length < 2 ^ 32 - 1) : ∃ digit, e.2.getLast? = some digit ∧
    renameText (render (pre ++ [a] ++ e :: post)) e.1 =
      some (render (pre ++ (a.1, a.2 ++ [digit]) :: post)) := by
  obtain ⟨num, digit, hnum⟩ : ∃ num digit, e.2 = num ++ [digit] :=
    ⟨_, _, (List.dropLast_concat_getLast hplain.2.2).symm⟩
  have hpre : pre ++ [a] ≠ [] := by simp
  have hhead : render (pre ++ [a]) = before pre ++ entry a := by
    rw [render_middle, after_nil, List.append_nil]
  have hbefore : before (pre ++ [a]) = render (pre ++ [a]) ++ [semi] := if_neg hpre
  have hafter : after post = semi :: render post := if_neg hpost
  have htext : render (pre ++ [a] ++ e :: post) =
      (render (pre ++ [a]) ++ [semi]) ++ (e.1 ++ semi :: ((num ++ [digit]) ++ semi :: render post)) := by
    rw [render_middle, hbefore, hafter, entry, hnum]
    simp
  rw [← length_before, hbefore] at hfind
  refine ⟨digit, by rw [hnum]; simp, ?_⟩
  rw [renameText_cut htext hfind hplain.1 (hnum ▸ hplain.2.1) hlen, hhead, render_middle pre, hafter]
  simp [entry]

/-- What `Rename` leaves behind, unless it cuts out the first of several entries: the entries behind
it, and the names before it. -/
theorem renameText_render (hpre : ∀ a ∈ pre, Plain a) (hplain : Plain e)
    (hfind : find (render (pre ++ e :: post)) e.1 0 = some (startOf pre))
    (hlen : (render (pre ++ e :: post)).length < 2 ^ 32 - 1) (hfirst : pre = [] → post = []) :
    ∃ pre', renameText (render (pre ++ e :: post)) e.1 = some (render (pre' ++ post)) ∧
      pre'.map Prod.fst = pre.map Prod.fst ∧ ∀ a ∈ pre', Plain a := by
  by_cases hpost : post = []
  · subst hpost
    refine ⟨pre, ?_, rfl, hpre⟩
    rw [renameText_last hplain hfind hlen, List.append_nil]
  · have hne : pre ≠ [] := fun heq => hpost (hfirst heq)
    obtain ⟨front, a, rfl⟩ : ∃ front a, pre = front ++ [a] := ⟨_, _, (List.dropLast_concat_getLast hne).symm⟩
    obtain ⟨digit, hdigit, hcut⟩ := renameText_middle hpost hplain hfind hlen
    have ha : Plain a := hpre a (by simp)
    refine ⟨front ++ [(a.1, a.2 ++ [digit])], by rw [hcut]; simp, by simp, fun b hb => ?_⟩
    rcases List.mem_append.1 hb with hb | hb
    · exact hpre b (List.mem_append_left _ hb)
    · rw [List.mem_singleton.1 hb]
      refine ⟨ha.1, fun hmem => ?_, by simp⟩
      rcases List.mem_append.1 hmem with hmem | hmem
      · exact ha.2.1 hmem
      · exact hplain.2.1 (List.mem_singleton.1 hmem ▸ List.mem_of_getLast? hdigit)

end

end Yfs.Client
