import Yfs.Client.YfsClient

/-! The loops of `nlock_lookup` and `nlock_readdir`, character by character: a machine of three
states that moves the index of the loop itself. On texts that an inode has room for they find the
entries of the text. -/
namespace Yfs.Client
open Yfs.Extent

/-- `readstate`. The third state is `CHECK` in `nlock_lookup` and `STORE` in `nlock_readdir`. -/
inductive Phase where
  | fileName | inodeNum | check
  deriving DecidableEq, Repr

/-- The variables of the loops. -/
structure Reader where
  pos : ℕ
  phase : Phase
  fileName : Str
  inodeNum : Str

def charAt (dirList : Str) (pos : ℕ) : UInt8 := dirList.getD pos 0

def unsignedSucc (pos : ℕ) : Option ℕ := some ((pos + 1) % 2 ^ 32)

/-- `pos + 1` as an `int`; overflow is undefined. -/
def intSucc (pos : ℕ) : Option ℕ := if pos + 1 < 2 ^ 31 then some (pos + 1) else none

def Reader.readName (succ : ℕ → Option ℕ) (dirList : Str) (s : Reader) : Option Reader :=
  if s.phase = .fileName then
    if charAt dirList s.pos = semi then
      (succ s.pos).map fun pos => { s with pos := pos, phase := .inodeNum }
    else some { s with fileName := s.fileName ++ [charAt dirList s.pos] }
  else some s

def Reader.readNum (len : ℤ) (dirList : Str) (s : Reader) : Reader :=
  if s.phase = .inodeNum then
    if charAt dirList s.pos = semi then { s with phase := .check }
    else if (s.pos : ℤ) = len - 1 then
      { s with inodeNum := s.inodeNum ++ [charAt dirList s.pos], phase := .check }
    else { s with inodeNum := s.inodeNum ++ [charAt dirList s.pos] }
  else s

/-- `if(read_state==CHECK)`, and the step to the next turn. `check` says what is done with an entry: it
returns or goes on. -/
def Reader.finish {ρ σ : Type} (succ : ℕ → Option ℕ) (check : σ → Str × Str → Except ρ σ)
    (next : Reader → σ → Option (Except ρ σ)) (s : Reader) (acc : σ) : Option (Except ρ σ) :=
  if s.phase = .check then
    match check acc (s.fileName, s.inodeNum) with
    | .error r => some (.error r)
    | .ok acc => (succ s.pos).bind fun pos => next ⟨pos, .fileName, [], []⟩ acc
  else (succ s.pos).bind fun pos => next { s with pos := pos } acc

/-- The loop from a given turn on. `none` is an index that overflows, or a loop that has not ended
when the fuel has. -/
def readLoop {ρ σ : Type} (succ : ℕ → Option ℕ) (len : ℤ) (dirList : Str)
    (check : σ → Str × Str → Except ρ σ) : ℕ → Reader → σ → Option (Except ρ σ)
  | 0, _, _ => none
  | fuel + 1, s, acc =>
    if (s.pos : ℤ) < len then
      (s.readName succ dirList).bind fun s =>
        (s.readNum len dirList).finish succ check (readLoop succ len dirList check fuel) acc
    else some (.ok acc)

def checkName (name : Str) (_ : Unit) (e : Str × Str) : Except Str Unit :=
  if e.1 = name then .error e.2 else .ok ()

/-- `nlock_lookup` behind its `get`. `extract` is the extraction of a number from a stream. -/
def lookupText (extract : Str → UInt64) (dirList name : Str) (out : UInt64) :
    Option (YfsStatus × Bool × UInt64) :=
  (readLoop unsignedSucc (dirList.length % 2 ^ 32 : ℕ) dirList (checkName name) (dirList.length + 1)
    ⟨0, .fileName, [], []⟩ ()).map fun
    | .error num => (.ok, true, extract num)
    | .ok _ => (.noent, false, out)

def storeEntry (extract : Str → UInt64) (list : List Dirent) (e : Str × Str) : Except Empty (List Dirent) :=
  .ok (list ++ [⟨e.1, extract e.2⟩])

/-- `nlock_readdir` behind its `get`. The length is converted to an `int`. -/
def readdirText (extract : Str → UInt64) (dirList : Str) : Option (List Dirent) :=
  (readLoop intSucc (Int.bmod dirList.length (2 ^ 32)) dirList (storeEntry extract) (dirList.length + 1)
    ⟨0, .fileName, [], []⟩ []).map fun
    | .error e => e.elim
    | .ok list => list

section
variable {ρ σ : Type} {succ : ℕ → Option ℕ} {dirList : Str} {check : σ → Str × Str → Except ρ σ}

theorem readLoop_of_le {len : ℤ} {s : Reader} (h : len ≤ s.pos) (fuel : ℕ) (acc : σ) :
    readLoop succ len dirList check (fuel + 1) s acc = some (.ok acc) := by
  rw [readLoop, if_neg (Int.not_lt.2 h)]

theorem readLoop_nameChar {len : ℤ} {pos : ℕ} (hpos : (pos : ℤ) < len) (hc : charAt dirList pos ≠ semi)
    (fuel : ℕ) (name num : Str) (acc : σ) :
    readLoop succ len dirList check (fuel + 1) ⟨pos, .fileName, name, num⟩ acc = (succ pos).bind fun pos' =>
      readLoop succ len dirList check fuel ⟨pos', .fileName, name ++ [charAt dirList pos], num⟩ acc := by
  rw [readLoop, if_pos hpos, Reader.readName, if_pos rfl, if_neg hc]
  rfl

theorem readLoop_nameEnd {len : ℤ} {pos : ℕ} (hpos : (pos : ℤ) + 1 < len) (hc : charAt dirList pos = semi)
    (hsucc : succ pos = some (pos + 1)) (fuel : ℕ) (name num : Str) (acc : σ) :
    readLoop succ len dirList check (fuel + 1) ⟨pos, .fileName, name, num⟩ acc =
      readLoop succ len dirList check (fuel + 1) ⟨pos + 1, .inodeNum, name, num⟩ acc := by
  have hnext : ((pos + 1 : ℕ) : ℤ) < len := by exact_mod_cast hpos
  rw [readLoop, if_pos (show (pos : ℤ) < len by omega), Reader.readName, if_pos rfl, if_pos hc, hsucc,
    readLoop, if_pos hnext]
  rfl

theorem readLoop_numChar {len : ℤ} {pos : ℕ} (hpos : (pos : ℤ) + 1 < len) (hc : charAt dirList pos ≠ semi)
    (fuel : ℕ) (name num : Str) (acc : σ) :
    readLoop succ len dirList check (fuel + 1) ⟨pos, .inodeNum, name, num⟩ acc = (succ pos).bind fun pos' =>
      readLoop succ len dirList check fuel ⟨pos', .inodeNum, name, num ++ [charAt dirList pos]⟩ acc := by
  have hlast : ¬(pos : ℤ) = len - 1 := by omega
  rw [readLoop, if_pos (show (pos : ℤ) < len by omega), Reader.readName, if_neg (by simp), Option.bind_some,
    Reader.readNum, if_pos rfl]
  simp only [if_neg hc, if_neg hlast]
  rfl

theorem readLoop_numEnd {len : ℤ} {pos : ℕ} (hpos : (pos : ℤ) < len)
    (hend : charAt dirList pos = semi ∨ (pos : ℤ) = len - 1) (fuel : ℕ) (name num : Str) (acc : σ) :
    readLoop succ len dirList check (fuel + 1) ⟨pos, .inodeNum, name, num⟩ acc =
      match check acc (name, if charAt dirList pos = semi then num else num ++ [charAt dirList pos]) with
      | .error r => some (.error r)
      | .ok acc => (succ pos).bind fun pos' =>
          readLoop succ len dirList check fuel ⟨pos', .fileName, [], []⟩ acc := by
  rw [readLoop, if_pos hpos, Reader.readName, if_neg (by simp), Option.bind_some, Reader.readNum, if_pos rfl]
  by_cases hc : charAt dirList pos = semi
  · simp only [if_pos hc]
    rfl
  · simp only [if_neg hc, if_pos (hend.resolve_left hc)]
    rfl

/-- A text that ends with the `;` behind a name: the index moves on behind the zero byte. -/
theorem readLoop_nameLast {pos : ℕ} (hpos : pos + 1 = dirList.length) (hc : charAt dirList pos = semi)
    (hsucc : succ pos = some (pos + 1)) (fuel : ℕ) (name : Str) (acc : σ) :
    readLoop succ dirList.length dirList check (fuel + 1) ⟨pos, .fileName, name, []⟩ acc =
      (succ dirList.length).bind fun pos' =>
        readLoop succ dirList.length dirList check fuel ⟨pos', .inodeNum, name, [0]⟩ acc := by
  have hzero : charAt dirList dirList.length = 0 := List.getD_eq_default _ _ le_rfl
  have hlast : ¬(dirList.length : ℤ) = dirList.length - 1 := by omega
  rw [hpos] at hsucc
  rw [readLoop, if_pos (show (pos : ℤ) < dirList.length by omega), Reader.readName, if_pos rfl,
    if_pos hc, hsucc, Option.map_some, Option.bind_some, Reader.readNum, if_pos rfl]
  simp only [if_neg hlast, hzero]
  rfl

theorem charAt_of_drop {pos : ℕ} {c : UInt8} {rest : Str} (h : dirList.drop pos = c :: rest) :
    charAt dirList pos = c ∧ dirList.drop (pos + 1) = rest ∧ dirList.length = pos + 1 + rest.length := by
  have hlt : pos < dirList.length := by
    by_contra hge
    rw [List.drop_eq_nil_of_le (Nat.not_lt.1 hge)] at h
    cases h
  have hlen := congrArg List.length h
  rw [List.length_drop, List.length_cons] at hlen
  rw [List.drop_eq_getElem_cons hlt] at h
  obtain ⟨hget, hrest⟩ := List.cons.inj h
  refine ⟨?_, hrest, by omega⟩
  rw [charAt, List.getD_eq_getElem _ _ hlt, hget]

private theorem readLoop_numLast {pos : ℕ} {c : UInt8} (hdrop : dirList.drop pos = [c]) (hsemi : c ≠ semi)
    (hsucc : succ pos = some (pos + 1)) (fuel : ℕ) (name num : Str) (acc : σ) :
    readLoop succ dirList.length dirList check (fuel + 1 + 1) ⟨pos, .inodeNum, name, num⟩ acc =
      some ([(name, num ++ [c])].foldlM check acc) := by
  obtain ⟨hc, -, hlen⟩ := charAt_of_drop hdrop
  rw [List.length_nil] at hlen
  rw [readLoop_numEnd (by omega) (.inr (by omega)), hc, if_neg hsemi, List.foldlM_cons]
  cases check acc (name, num ++ [c]) with
  | error r => rfl
  | ok acc =>
    simp only [hsucc, Option.bind_some]
    rw [readLoop_of_le (by simp only; omega)]
    rfl

/-- The loop from a turn that starts in a name or in a number checks the entries that are left. -/
theorem readLoop_eq (hsucc : ∀ i ≤ dirList.length, succ i = some (i + 1)) {rest : Str} {pos fuel : ℕ}
    (hrest : dirList.drop pos = rest) (hfuel : rest.length < fuel) (acc : σ) (name num : Str) :
    readLoop succ dirList.length dirList check fuel ⟨pos, .fileName, name, []⟩ acc =
        some ((scan (.fileName name) rest).foldlM check acc) ∧
      (rest ≠ [] → readLoop succ dirList.length dirList check fuel ⟨pos, .inodeNum, name, num⟩ acc =
        some ((scan (.inodeNum name num) rest).foldlM check acc)) := by
  induction rest generalizing pos fuel acc name num with
  | nil =>
    obtain ⟨fuel, rfl⟩ := Nat.exists_eq_add_of_lt hfuel
    have hle := List.drop_eq_nil_iff.1 hrest
    refine ⟨?_, fun hne => absurd rfl hne⟩
    rw [readLoop_of_le (by exact_mod_cast hle), scan]
    rfl
  | cons c rest ih =>
    obtain ⟨fuel, rfl⟩ : ∃ k, fuel = k + 1 := ⟨fuel - 1, by omega⟩
    have hfuel : rest.length < fuel := by simpa using hfuel
    obtain ⟨hc, hrest', hlen⟩ := charAt_of_drop hrest
    have hpos := hsucc pos (by omega)
    constructor
    · by_cases hsemi : c = semi
      · rw [scan, if_pos hsemi]
        cases rest with
        | nil =>
          -- the text ends with the `;` behind a name
          obtain ⟨fuel, rfl⟩ := Nat.exists_eq_add_of_lt hfuel
          rw [readLoop_nameLast (by simpa using hlen.symm) (hc.trans hsemi) hpos, hsucc _ le_rfl,
            Option.bind_some, readLoop_of_le (by simp only; omega), scan]
          rfl
        | cons c' rest =>
          rw [readLoop_nameEnd (by simp only [List.length_cons] at hlen; omega) (hc.trans hsemi) hpos]
          exact (ih hrest' (Nat.lt_succ_of_lt hfuel) acc name []).2 (List.cons_ne_nil _ _)
      · rw [scan, if_neg hsemi, readLoop_nameChar (by omega) (hc ▸ hsemi), hpos, hc]
        exact (ih hrest' hfuel acc (name ++ [c]) []).1
    · intro _
      by_cases hsemi : c = semi
      · rw [readLoop_numEnd (by omega) (.inl (hc.trans hsemi)), if_pos (hc.trans hsemi), scan, if_pos hsemi,
          List.foldlM_cons]
        cases check acc (name, num) with
        | error r => rfl
        | ok acc =>
          simp only [hpos, Option.bind_some]
          exact (ih hrest' hfuel acc [] []).1
      · rw [scan, if_neg hsemi]
        by_cases hnil : rest = []
        · subst hnil
          obtain ⟨fuel, rfl⟩ := Nat.exists_eq_add_of_lt hfuel
          rw [if_pos rfl]
          exact readLoop_numLast hrest hsemi hpos _ name num acc
        · have hmore := List.length_pos_of_ne_nil hnil
          rw [if_neg hnil, readLoop_numChar (by omega) (hc ▸ hsemi), hpos, hc]
          exact (ih hrest' hfuel acc name (num ++ [c])).2 hnil

theorem readLoop_start (hsucc : ∀ i ≤ dirList.length, succ i = some (i + 1)) (acc : σ) :
    readLoop succ dirList.length dirList check (dirList.length + 1) ⟨0, .fileName, [], []⟩ acc =
      some ((entries dirList).foldlM check acc) :=
  (readLoop_eq hsucc List.drop_zero (Nat.lt_succ_self _) acc [] []).1

end

theorem foldlM_checkName (name : Str) (l : List (Str × Str)) :
    l.foldlM (checkName name) () =
      match l.find? fun e => e.1 = name with
      | some e => .error e.2
      | none => .ok () := by
  induction l with
  | nil => rfl
  | cons e l ih =>
    rw [List.foldlM_cons, checkName]
    by_cases hname : e.1 = name
    · rw [if_pos hname, List.find?_cons_of_pos (by simpa using hname)]
      rfl
    · rw [if_neg hname, List.find?_cons_of_neg (by simpa using hname), ← ih]
      rfl

theorem foldlM_storeEntry (extract : Str → UInt64) (l : List (Str × Str)) (list : List Dirent) :
    l.foldlM (storeEntry extract) list = .ok (list ++ l.map fun e => ⟨e.1, extract e.2⟩) := by
  induction l generalizing list with
  | nil => simp [pure, Except.pure]
  | cons e l ih =>
    have hfirst : (e :: l).foldlM (storeEntry extract) list =
        l.foldlM (storeEntry extract) (list ++ [⟨e.1, extract e.2⟩]) := rfl
    rw [hfirst, ih, List.append_assoc]
    rfl

section
variable (extract : Str → UInt64) {dirList : Str}

theorem lookupText_eq (hlen : dirList.length < 2 ^ 31 - 1) (name : Str) (out : UInt64) :
    lookupText extract dirList name out = some (match findEntry dirList name with
      | some e => (.ok, true, extract e.2)
      | none => (.noent, false, out)) := by
  have hsucc : ∀ i ≤ dirList.length, unsignedSucc i = some (i + 1) := fun i hi => by
    rw [unsignedSucc, Nat.mod_eq_of_lt (by omega)]
  rw [lookupText, Nat.mod_eq_of_lt (by omega), readLoop_start hsucc, foldlM_checkName, findEntry]
  cases (entries dirList).find? fun e => e.1 = name <;> rfl

theorem readdirText_eq (hlen : dirList.length < 2 ^ 31 - 1) :
    readdirText extract dirList = some ((entries dirList).map fun e => ⟨e.1, extract e.2⟩) := by
  have hsucc : ∀ i ≤ dirList.length, intSucc i = some (i + 1) := fun i hi => if_pos (by omega)
  have hint : Int.bmod dirList.length (2 ^ 32) = dirList.length := Int.bmod_eq_of_le (by omega) (by omega)
  rw [readdirText, hint, readLoop_start hsucc, foldlM_storeEntry, List.nil_append]
  rfl

/-- `nlock_lookup` and `nlock_readdir` agree on a text about a name. -/
def Agree (dirList name : Str) (out : UInt64) : Prop :=
  ∃ list, readdirText extract dirList = some list ∧
    lookupText extract dirList name out = some (match list.find? fun e => e.name = name with
      | some e => (.ok, true, e.inum)
      | none => (.noent, false, out))

private theorem find?_map_dirent (l : List (Str × Str)) (name : Str) :
    (l.map fun e => (⟨e.1, extract e.2⟩ : Dirent)).find? (fun e => e.name = name) =
      (l.find? fun e => e.1 = name).map fun e => ⟨e.1, extract e.2⟩ := by
  rw [List.find?_map]
  rfl

theorem length_lt_of_le_maxFile (hlen : dirList.length ≤ maxFile * blockSize) :
    dirList.length < 2 ^ 31 - 1 := by
  rw [maxFile_eq, blockSize_eq] at hlen
  omega

/-- The two loops agree on every text that an inode has room for. -/
theorem lookup_agrees (hlen : dirList.length ≤ maxFile * blockSize) (name : Str) (out : UInt64) :
    Agree extract dirList name out := by
  have hshort := length_lt_of_le_maxFile hlen
  refine ⟨_, readdirText_eq extract hshort, ?_⟩
  rw [lookupText_eq extract hshort, find?_map_dirent, findEntry]
  cases (entries dirList).find? fun e => e.1 = name <;> rfl

end

def brokenText : Str := [97, semi, 50, semi, 97, semi, 120, semi, 98, semi]

theorem lookup_agrees_broken : brokenText.length ≤ maxFile * blockSize ∧
    Agree n2i brokenText [97] 0 ∧ Agree n2i brokenText [98] 0 :=
  ⟨by decide, lookup_agrees n2i (by decide) _ _, lookup_agrees n2i (by decide) _ _⟩

end Yfs.Client
