import Mathlib.Data.List.TakeWhile
import Mathlib.Data.Nat.Digits.Defs

/-! The text of a directory: entries `name;inum`, separated by `;`. -/
namespace Yfs.Client

abbrev Str := List UInt8

def semi : UInt8 := 59

/-- `c_str()`: the string up to its first zero byte. -/
def cStr (s : Str) : Str := s.takeWhile fun c => c ≠ 0

theorem cStr_eq_self {s : Str} (h : (0 : UInt8) ∉ s) : cStr s = s := by
  rw [cStr, List.takeWhile_eq_self_iff]
  intro c hc
  have hne : c ≠ 0 := fun heq => h (heq ▸ hc)
  simpa using hne

/-- `filename` and `inum2str`: an inum in decimal digits. -/
def filename (inum : UInt64) : Str :=
  if inum.toNat = 0 then [48] else (Nat.digits 10 inum.toNat).reverse.map fun d => UInt8.ofNat (48 + d)

def isDigit (c : UInt8) : Bool := decide (48 ≤ c.toNat ∧ c.toNat ≤ 57)

def isSpace (c : UInt8) : Bool := decide (c.toNat = 32 ∨ 9 ≤ c.toNat ∧ c.toNat ≤ 13)

/-- The number that the digits at the start of a string denote. -/
def decimal (s : Str) : ℕ := (s.takeWhile isDigit).foldl (fun v c => 10 * v + (c.toNat - 48)) 0

/-- Extraction of an `unsigned long long` from a stream: white space, a sign, digits. It gives 0 without
digits and the greatest number on overflow. At the end of the stream nothing is read, and the variable stays
what it was. -/
def extractInum (finum : UInt64) (s : Str) : UInt64 :=
  let read (negative : Bool) (s : Str) : UInt64 :=
    if 2 ^ 64 ≤ decimal s then UInt64.ofNat (2 ^ 64 - 1)
    else if negative then -UInt64.ofNat (decimal s) else UInt64.ofNat (decimal s)
  match s.dropWhile isSpace with
  | [] => finum
  | c :: l => if c = 45 then read true l else if c = 43 then read false l else read false (c :: l)

/-- The source reads into a variable that is not initialised and that blank text leaves as it was; here it
is 0. A number that the client wrote is never blank. -/
def n2i (n : Str) : UInt64 := extractInum 0 n

/-- The states of the loops in `nlock_lookup` and `nlock_readdir` between two characters, with
what they have collected. -/
inductive ReadState where
  | fileName (name : Str)
  | inodeNum (name num : Str)

/-- The entries that the loops find. A `;` in the name part also moves on to the next character;
an entry ends with a `;` or with the last character. -/
def scan : ReadState → Str → List (Str × Str)
  | _, [] => []
  | .fileName name, c :: l =>
    if c = semi then scan (.inodeNum name []) l else scan (.fileName (name ++ [c])) l
  | .inodeNum name num, c :: l =>
    if c = semi then (name, num) :: scan (.fileName []) l
    else if l = [] then [(name, num ++ [c])]
    else scan (.inodeNum name (num ++ [c])) l

def entries (dirList : Str) : List (Str × Str) := scan (.fileName []) dirList

def entry (e : Str × Str) : Str := e.1 ++ semi :: e.2

def addEntry (dirList : Str) (e : Str × Str) : Str :=
  if dirList = [] then entry e else dirList ++ semi :: entry e

def render : List (Str × Str) → Str
  | [] => []
  | [e] => entry e
  | e :: e' :: l => entry e ++ semi :: render (e' :: l)

/-- A name without `;` and a number that is not empty. -/
def Plain (e : Str × Str) : Prop := semi ∉ e.1 ∧ semi ∉ e.2 ∧ e.2 ≠ []

theorem render_cons (e : Str × Str) {l : List (Str × Str)} (h : l ≠ []) :
    render (e :: l) = entry e ++ semi :: render l := by
  cases l with
  | nil => contradiction
  | cons e' l => rfl

theorem entry_ne_nil (e : Str × Str) : entry e ≠ [] := by
  simp [entry]

private theorem render_ne_nil {l : List (Str × Str)} (h : l ≠ []) : render l ≠ [] := by
  match l with
  | [e] => exact entry_ne_nil e
  | e :: e' :: l => simp [render, entry]

theorem addEntry_render (l : List (Str × Str)) (e : Str × Str) :
    addEntry (render l) e = render (l ++ [e]) := by
  induction l with
  | nil => rfl
  | cons a l ih =>
    cases l with
    | nil => simp [addEntry, render, entry]
    | cons b l =>
      have hne := List.cons_ne_nil b l
      rw [addEntry, if_neg (render_ne_nil hne)] at ih
      rw [addEntry, if_neg (render_ne_nil (List.cons_ne_nil a _)), render_cons a hne, List.cons_append,
        render_cons a (by simp), ← ih]
      simp

theorem scan_name {name : Str} (h : semi ∉ name) (acc l : Str) :
    scan (.fileName acc) (name ++ semi :: l) = scan (.inodeNum (acc ++ name) []) l := by
  induction name generalizing acc with
  | nil => simp [scan]
  | cons c name ih =>
    obtain ⟨hc, hrest⟩ := not_or.1 (List.mem_cons.not.1 h)
    rw [List.cons_append, scan, if_neg (Ne.symm hc), ih hrest, List.append_assoc, List.singleton_append]

theorem scan_num {num : Str} (h : semi ∉ num) (name acc l : Str) :
    scan (.inodeNum name acc) (num ++ semi :: l) = (name, acc ++ num) :: scan (.fileName []) l := by
  induction num generalizing acc with
  | nil => simp [scan]
  | cons c num ih =>
    obtain ⟨hc, hrest⟩ := not_or.1 (List.mem_cons.not.1 h)
    rw [List.cons_append, scan, if_neg (Ne.symm hc), if_neg (by simp), ih hrest, List.append_assoc,
      List.singleton_append]

theorem scan_num_last {num : Str} (h : semi ∉ num) (hne : num ≠ []) (name acc : Str) :
    scan (.inodeNum name acc) num = [(name, acc ++ num)] := by
  induction num generalizing acc with
  | nil => contradiction
  | cons c num ih =>
    obtain ⟨hc, hrest⟩ := not_or.1 (List.mem_cons.not.1 h)
    rw [scan, if_neg (Ne.symm hc)]
    split_ifs with hnil
    · rw [hnil]
    · rw [ih hrest hnil, List.append_assoc, List.singleton_append]

theorem entries_render {l : List (Str × Str)} (h : ∀ e ∈ l, Plain e) : entries (render l) = l := by
  induction l with
  | nil => rfl
  | cons e l ih =>
    obtain ⟨hname, hnum, hne⟩ := h e List.mem_cons_self
    have hl := ih fun e' he' => h e' (List.mem_cons_of_mem e he')
    by_cases hnil : l = []
    · subst hnil
      rw [render, entries, entry, scan_name hname, scan_num_last hnum hne]
      rfl
    · rw [render_cons e hnil, entries, entry, List.append_assoc, List.cons_append, scan_name hname,
        scan_num hnum, ← entries, hl]
      rfl

theorem semi_not_mem_scan {s : ReadState} {dirList : Str} {e : Str × Str}
    (hs : match s with | .fileName name => semi ∉ name | .inodeNum name _ => semi ∉ name)
    (h : e ∈ scan s dirList) : semi ∉ e.1 := by
  induction dirList generalizing s with
  | nil =>
    rw [scan] at h
    cases h
  | cons c dirList ih =>
    cases s with
    | fileName name =>
      rw [scan] at h
      split_ifs at h with hc
      · exact ih hs h
      · refine ih ?_ h
        simpa [Ne.symm hc] using hs
    | inodeNum name num =>
      rw [scan] at h
      split_ifs at h with hc hlast
      · rcases List.mem_cons.1 h with rfl | h
        · exact hs
        · exact ih List.not_mem_nil h
      · rw [List.mem_singleton.1 h]
        exact hs
      · exact ih hs h

theorem mem_filename {inum : UInt64} {c : UInt8} (h : c ∈ filename inum) : isDigit c = true := by
  unfold filename at h
  split_ifs at h
  · rw [List.mem_singleton.1 h]
    decide
  · obtain ⟨d, hd, rfl⟩ := List.mem_map.1 h
    have hlt := Nat.digits_lt_base (by omega) (List.mem_reverse.1 hd)
    simp only [isDigit, UInt8.toNat_ofNat']
    rw [Nat.mod_eq_of_lt (by omega)]
    simp
    omega

theorem filename_ne_nil (inum : UInt64) : filename inum ≠ [] := by
  unfold filename
  split_ifs with h
  · exact List.cons_ne_nil _ _
  · simpa [Nat.digits_eq_nil_iff_eq_zero] using h

theorem semi_not_mem_filename (inum : UInt64) : semi ∉ filename inum := fun h =>
  absurd (mem_filename h) (by decide)

theorem decimal_filename (inum : UInt64) : decimal (filename inum) = inum.toNat := by
  have hall : (filename inum).takeWhile isDigit = filename inum :=
    List.takeWhile_eq_self_iff.2 fun c hc => mem_filename hc
  rw [decimal, hall, filename]
  split_ifs with h
  · rw [h]
    rfl
  · rw [List.foldl_map, List.foldl_reverse]
    have hfold : ∀ l : List ℕ, (∀ d ∈ l, d < 10) →
        l.foldr (fun d v => 10 * v + ((UInt8.ofNat (48 + d)).toNat - 48)) 0 = Nat.ofDigits 10 l := by
      intro l hl
      induction l with
      | nil => rfl
      | cons d l ih =>
        have hd := hl d List.mem_cons_self
        rw [List.foldr_cons, ih fun e he => hl e (List.mem_cons_of_mem d he), Nat.ofDigits_cons,
          UInt8.toNat_ofNat', Nat.mod_eq_of_lt (by omega)]
        omega
    rw [hfold _ fun d hd => Nat.digits_lt_base (by omega) hd, Nat.ofDigits_digits]

theorem extractInum_filename (finum inum : UInt64) : extractInum finum (filename inum) = inum := by
  have hdrop : (filename inum).dropWhile isSpace = filename inum := by
    refine List.dropWhile_eq_self_iff.2 fun hpos => ?_
    have hd := mem_filename (List.getElem_mem hpos)
    simp only [isDigit, decide_eq_true_eq] at hd
    simp only [isSpace, decide_eq_true_eq]
    omega
  cases hf : filename inum with
  | nil => exact absurd hf (filename_ne_nil inum)
  | cons c l =>
    have hc : isDigit c = true := mem_filename (hf ▸ List.mem_cons_self)
    have hminus : c ≠ 45 := fun heq => absurd hc (by rw [heq]; decide)
    have hplus : c ≠ 43 := fun heq => absurd hc (by rw [heq]; decide)
    have hval := decimal_filename inum
    have hlt := inum.toNat_lt
    rw [extractInum, ← hf, hdrop, hf]
    simp only [if_neg hminus, if_neg hplus]
    rw [← hf, hval, if_neg (by omega)]
    simp

theorem n2i_filename (inum : UInt64) : n2i (filename inum) = inum := extractInum_filename 0 inum

end Yfs.Client
