import Yfs.Hdfs.LockOrder
import Yfs.Hdfs.Names

/-! A client that makes an entry in a directory while the namenode renames another entry there. Both
read the whole text of the directory, edit it and put it back, and only the client takes the lock. -/
namespace Yfs.Hdfs
open Yfs.Lib Yfs.Extent Yfs.Client

/-- What the two sides report. -/
inductive Outcome where
  | created (r : YfsStatus) (ino : UInt64)
  | renamed (r : Option Bool)
  deriving DecidableEq

def make (isDir : Bool) (parent : UInt64) (name : Str) (out : UInt64) : M (YfsStatus × UInt64) :=
  if isDir then Client.mkdir parent name out else Client.create parent name out

/-- A client that makes the file or directory `name` in directory `d`, and the namenode that renames
`srcName` to `dstName` there. -/
def racers (d : UInt64) (isDir : Bool) (name : Str) (out : UInt64) (srcName dstName : Str) : Side → M Outcome
  | .client => do
    let (r, ino) ← make isDir d name out
    pure (.created r ino)
  | .namenode => do
    let r ← NameNode.rename d srcName d dstName
    pure (.renamed r)

/-- The world, and what each side last read from the directory or wrote to it. -/
structure Watched where
  world : World Side
  seen : Side → Str

def noted (d : UInt64) (t : Side) : (c : Call) → Reply c → (Side → Str) → Side → Str
  | .get id, r, seen => if id = d then Function.update seen t r.2 else seen
  | .put id buf, _, seen => if id = d then Function.update seen t buf else seen
  | _, _, seen => seen

def Watched.serve (d : UInt64) (t : Side) (c : Call) (s : Watched) (r : Reply c) (s' : Watched) : Prop :=
  World.serve t c s.world r s'.world ∧ s'.seen = noted d t c r s.seen

/-- A side writes the directory only while it holds what that side has seen last, and the namenode
reads it only when it can cut out the entry. -/
def SeenLast (d : UInt64) (srcName : Str) : Side → Call → Watched → Prop
  | .namenode, .get id, s => id = d → findEntry (text (s.world.files d)) srcName ≠ none →
      Cuttable (text (s.world.files d)) srcName
  | t, .put id _, s => id = d → text (s.world.files d) = s.seen t
  | _, _, _ => True

structure Creating where
  seen : Str
  made : Option UInt64
  entered : Bool

def createAct : (c : Call) → Creating → Reply c → Creating → Prop
  | .create _, g, r, g' => g' = { g with made := some r.2 }
  | .get _, g, r, g' => r.1 = .ok ∧ g' = { g with seen := r.2 }
  | .put _ buf, g, _, g' => g' = { g with seen := buf, entered := true }
  | _, g, _, g' => g' = g

/-- The client adds its entry to what it has read. -/
def createOk (d : UInt64) (name : Str) : Call → Creating → Prop
  | .create _, g => g.entered = false
  | .get id, _ => id = d
  | .put id buf, g => id = d ∧ g.entered = false ∧
      ∃ ino, g.made = some ino ∧ buf = addEntry g.seen (name, filename ino)
  | .getattr _, _ | .acquire _, _ | .release _, _ => True
  | _, _ => False

inductive Stage where
  | before | cut | moved

def Stage.next : Stage → Stage
  | .before => .cut
  | _ => .moved

structure Moving where
  seen : Str
  stage : Stage

/-- The directory stays one, and the entry to be renamed stays the same until it is cut out. -/
def moveAct (srcName : Str) (found : Option (Str × Str)) : (c : Call) → Moving → Reply c → Moving → Prop
  | .getattr _, g, r, g' => r.1 = .ok ∧ r.2.type = FileType.dir.code ∧ g' = g
  | .get _, g, r, g' => r.1 = .ok ∧ (g.stage = .before → findEntry r.2 srcName = found) ∧
      g' = { g with seen := r.2 }
  | .put _ buf, g, _, g' => g' = ⟨buf, g.stage.next⟩
  | _, g, _, g' => g' = g

/-- The namenode cuts the entry out of what it has read, then adds it under its new name to what it
has written. -/
def moveOk (d : UInt64) (srcName dstName : Str) (found : Option (Str × Str)) : Call → Moving → Prop
  | .getattr id, _ => id = d
  | .get id, _ => id = d
  | .put id buf, g => id = d ∧ ∃ e, found = some e ∧
      (g.stage = .before ∧ renameText g.seen srcName = some buf ∨
        g.stage = .cut ∧ buf = addEntry g.seen (dstName, filename (n2i e.2)))
  | _, _ => False

section
variable {d : UInt64} {name srcName dstName : Str} {found : Option (Str × Str)}

private theorem creates_nlockLookup (g : Creating) (out : UInt64) :
    (nlockLookup d name false out).Wp (createOk d name) createAct (fun _ g' => g'.entered = g.entered) g := by
  refine Prog.Wp.bind (Q := fun _ g' => g' = g) ?_ fun isDir _ heq => ?_
  · refine Prog.Wp.bind (Q := fun _ g' => g' = g) (Prog.wp_perform trivial fun _ _ h => h) fun _ _ heq => ?_
    exact Prog.wp_pure heq
  rw [heq]
  cases isDir with
  | false => exact Prog.wp_pure rfl
  | true =>
    refine Prog.Wp.bind (Q := fun _ g' => g'.entered = g.entered) ?_ fun ⟨r, dirList⟩ g' hentered => ?_
    · exact Prog.wp_perform rfl fun r g' h => by rw [h.2]
    dsimp only
    split_ifs
    · cases findEntry dirList name with
      | none => exact Prog.wp_pure hentered
      | some e => exact Prog.wp_pure hentered
    · exact Prog.wp_pure hentered

theorem creates_nlockAdd (type : FileType) {g : Creating} (hg : g.entered = false) (out : UInt64) :
    (nlockAdd type d name out).Wp (createOk d name) createAct
      (fun r g' => r.1 = .ok → g'.entered = true ∧ g'.made = some r.2) g := by
  refine (creates_nlockLookup g out).bind fun ⟨_, found, ino⟩ g₁ hentered => ?_
  rw [hg] at hentered
  dsimp only
  split_ifs
  · exact Prog.wp_pure fun h => nomatch h
  · refine Prog.Wp.bind (Q := fun r g₂ => g₂.entered = false ∧ g₂.made = some r.2) ?_
      fun ⟨_, ino⟩ g₂ ⟨hentered₂, hmade₂⟩ => ?_
    · refine Prog.wp_perform hentered fun r g₂ h => ?_
      rw [h]
      exact ⟨hentered, rfl⟩
    refine Prog.Wp.bind (Q := fun r g₃ => r.1 = .ok ∧ g₃ = { g₂ with seen := r.2 }) ?_
      fun ⟨r, dirList⟩ g₃ ⟨hr, hg₃⟩ => ?_
    · exact Prog.wp_perform rfl fun r g₃ h => h
    dsimp only at hr hg₃ ⊢
    rw [hr, if_pos rfl, hg₃]
    refine Prog.Wp.bind (Q := fun _ g₄ => g₄.entered = true ∧ g₄.made = some ino) ?_ fun _ g₄ h => ?_
    · refine Prog.wp_perform ⟨rfl, hentered₂, ino, hmade₂, rfl⟩ fun _ g₄ h => ?_
      rw [h]
      exact ⟨rfl, hmade₂⟩
    · exact Prog.wp_pure fun _ => h

private theorem creates_acquire (g : Creating) (lid : UInt64) :
    (perform (.acquire lid)).Wp (createOk d name) createAct (fun _ g' => g' = g) g :=
  Prog.wp_perform trivial fun _ _ h => h

private theorem creates_release (g : Creating) (lid : UInt64) :
    (perform (.release lid)).Wp (createOk d name) createAct (fun _ g' => g' = g) g :=
  Prog.wp_perform trivial fun _ _ h => h

theorem creates_racers {isDir : Bool} (out : UInt64) (srcName dstName seen : Str) :
    (racers d isDir name out srcName dstName .client).Wp (createOk d name) createAct
      (fun o g => ∀ ino, o = .created .ok ino → g.entered = true ∧ g.made = some ino)
      ⟨seen, none, false⟩ := by
  have hlocked : ∀ type : FileType, (locked d (nlockAdd type d name out)).Wp (createOk d name) createAct
      (fun r g' => r.1 = .ok → g'.entered = true ∧ g'.made = some r.2) ⟨seen, none, false⟩ := by
    intro type
    refine (creates_acquire _ d).bind_state fun _ => ?_
    refine (creates_nlockAdd type rfl out).bind fun r g h => ?_
    refine (creates_release g d).bind_state fun _ => ?_
    exact Prog.wp_pure h
  have hmake : (make isDir d name out).Wp (createOk d name) createAct
      (fun r g' => r.1 = .ok → g'.entered = true ∧ g'.made = some r.2) ⟨seen, none, false⟩ := by
    cases isDir with
    | false => exact hlocked .file
    | true => exact hlocked .dir
  refine hmake.bind fun ⟨r, ino⟩ g h => ?_
  intro ino' heq
  cases heq
  exact h rfl

private theorem moves_getattr (g : Moving) :
    (perform (.getattr d)).Wp (moveOk d srcName dstName found) (moveAct srcName found)
      (fun r g' => r.1 = .ok ∧ r.2.type = FileType.dir.code ∧ g' = g) g :=
  Prog.wp_perform rfl fun _ _ h => h

theorem moves_nlockIsdir (g : Moving) :
    (nlockIsdir d).Wp (moveOk d srcName dstName found) (moveAct srcName found)
      (fun b g' => b = true ∧ g' = g) g := by
  refine (moves_getattr g).bind fun ⟨r, a⟩ _ ⟨hr, htype, heq⟩ => ?_
  dsimp only at hr htype ⊢
  rw [hr, htype]
  exact Prog.wp_pure ⟨rfl, heq⟩

theorem moves_get (seen : Str) :
    (perform (.get d)).Wp (moveOk d srcName dstName found) (moveAct srcName found)
      (fun r g' => r.1 = .ok ∧ findEntry r.2 srcName = found ∧ g' = ⟨r.2, .before⟩) ⟨seen, .before⟩ :=
  Prog.wp_perform rfl fun _ _ h => ⟨h.1, h.2.1 rfl, h.2.2⟩

theorem moves_nlockLookup (seen : Str) (out : UInt64) :
    (nlockLookup d (cStr srcName) false out).Wp (moveOk d srcName dstName found) (moveAct srcName found)
      (fun _ g' => g'.stage = .before) ⟨seen, .before⟩ := by
  refine (moves_nlockIsdir _).bind fun _ _ ⟨hb, heq⟩ => ?_
  rw [hb, heq]
  refine (moves_get seen).bind fun ⟨r, dirList⟩ _ ⟨hr, _, heq⟩ => ?_
  dsimp only at hr heq ⊢
  rw [heq, if_pos hr]
  cases findEntry dirList (cStr srcName) with
  | none => exact Prog.wp_pure rfl
  | some e => exact Prog.wp_pure rfl

private theorem moves_nlockReaddir (seen : Str) :
    (nlockReaddir d).Wp (moveOk d srcName dstName found) (moveAct srcName found)
      (fun r g' => r.2.find? (fun e => e.name = srcName) = found.map (fun e => ⟨e.1, n2i e.2⟩) ∧
        g'.stage = .before) ⟨seen, .before⟩ := by
  refine (moves_nlockIsdir _).bind fun _ _ ⟨hb, heq⟩ => ?_
  rw [hb, heq]
  refine (moves_get seen).bind fun ⟨r, dirList⟩ _ ⟨hr, hfound, heq⟩ => ?_
  dsimp only at hr hfound heq ⊢
  rw [heq, if_pos hr]
  refine Prog.wp_pure ⟨?_, rfl⟩
  dsimp only
  rw [List.find?_map, ← hfound]
  rfl

theorem moves_rename (seen : Str) :
    (NameNode.rename d srcName d dstName).Wp (moveOk d srcName dstName found) (moveAct srcName found)
      (fun r g' => r = some true → g'.stage = .moved) ⟨seen, .before⟩ := by
  refine (moves_nlockLookup seen 0).bind fun ⟨_, isFound, _⟩ ⟨seen₁, stage₁⟩ hstage₁ => ?_
  dsimp only at hstage₁ ⊢
  subst hstage₁
  cases isFound with
  | false => exact Prog.wp_pure fun h => nomatch h
  | true =>
    refine (moves_nlockReaddir seen₁).bind fun ⟨_, list⟩ ⟨seen₂, stage₂⟩ ⟨hlist, hstage₂⟩ => ?_
    dsimp only at hlist hstage₂ ⊢
    subst hstage₂
    refine (moves_get seen₂).bind fun ⟨r, dirList⟩ _ ⟨hr, _, heq⟩ => ?_
    dsimp only at hr heq ⊢
    rw [heq, hlist, if_pos hr]
    cases hfound : found with
    | none => exact Prog.wp_pure fun h => nomatch h
    | some e =>
      dsimp only [Option.map_some]
      cases hcut : renameText dirList srcName with
      | none => exact Prog.wp_pure fun h => nomatch h
      | some srcEntry =>
        refine Prog.Wp.bind (Q := fun _ g' => g' = ⟨srcEntry, .cut⟩) ?_ fun _ _ heq => ?_
        · exact Prog.wp_perform ⟨rfl, e, rfl, .inl ⟨rfl, hcut⟩⟩ fun _ _ h => h
        rw [heq]
        refine Prog.Wp.bind (Q := fun r g' => r = (true, srcEntry) ∧ g' = ⟨srcEntry, .cut⟩) ?_
          fun r _ ⟨hr, heq⟩ => ?_
        · rw [NameNode.dstEntry, if_pos rfl]
          exact Prog.wp_pure ⟨rfl, rfl⟩
        rw [hr, heq]
        refine Prog.Wp.bind (Q := fun _ g' => g'.stage = .moved) ?_ fun _ g' hmoved => ?_
        · refine Prog.wp_perform ⟨rfl, e, rfl, .inr ⟨rfl, rfl⟩⟩ fun _ _ h => ?_
          rw [h]
          rfl
        · exact Prog.wp_pure fun _ => hmoved

end

/-- The entries `l` of the directory, which had the entries `l₀` at first and where the client has
entered `new`. -/
structure Kept (l₀ new l : List (Str × Str)) (found : Option (Str × Str)) (dstName : Str)
    (stage : Stage) : Prop where
  plain : ∀ e ∈ l, Plain e
  uncut : stage = .before → l = l₀ ++ new
  created : ∀ e ∈ new, e ∈ l
  moved : stage = .moved → ∃ e, found = some e ∧ (dstName, filename (n2i e.2)) ∈ l

namespace Kept
variable {l₀ new l : List (Str × Str)} {srcName dstName : Str} {stage : Stage} {e : Str × Str}

theorem findEntry_eq {found : Option (Str × Str)} (h : Kept l₀ new l found dstName .before)
    (hnew : ∀ e ∈ new, e.1 ≠ srcName) : findEntry (render l) srcName = findEntry (render l₀) srcName := by
  have hl := h.uncut rfl
  have hplain : ∀ e ∈ l₀, Plain e := fun e he => h.plain e (hl ▸ List.mem_append_left _ he)
  have hnone : new.find? (fun e => e.1 = srcName) = none := by
    rw [List.find?_eq_none]
    intro e he
    simpa using hnew e he
  rw [findEntry, findEntry, entries_render h.plain, entries_render hplain, hl, List.find?_append, hnone,
    Option.or_none]

theorem enter {found : Option (Str × Str)} (h : Kept l₀ [] l found dstName stage) (he : Plain e) :
    Kept l₀ [e] (l ++ [e]) found dstName stage where
  plain := by
    intro e' he'
    rcases List.mem_append.1 he' with he' | he'
    · exact h.plain e' he'
    · rw [List.mem_singleton.1 he']
      exact he
  uncut := by
    intro hstage
    rw [h.uncut hstage, List.append_nil]
  created := by
    intro e' he'
    exact List.mem_append_right l he'
  moved := by
    intro hstage
    obtain ⟨e', hfound, hmem⟩ := h.moved hstage
    exact ⟨e', hfound, List.mem_append_left _ hmem⟩

/-- The namenode cuts out the entry: what the client has entered stands behind it. -/
theorem cut (h : Kept l₀ new l (findEntry (render l₀) srcName) dstName .before)
    (hfound : findEntry (render l₀) srcName = some e) (hcuttable : Cuttable (render l) srcName) {buf : Str}
    (hbuf : renameText (render l) srcName = some buf) :
    ∃ l', buf = render l' ∧ Kept l₀ new l' (findEntry (render l₀) srcName) dstName .cut := by
  obtain ⟨hown, hfirst, hlen⟩ := hcuttable
  have hplain := h.plain
  have hl := h.uncut rfl
  have hplain₀ : ∀ e ∈ l₀, Plain e := fun e he => hplain e (hl ▸ List.mem_append_left _ he)
  obtain ⟨pre, post, hl₀, rfl, -, hpre⟩ := split_of_findEntry hplain₀ hfound
  rw [hl₀, List.append_assoc, List.cons_append] at hl
  subst hl
  have hstart := ownStart_render hplain hpre
  have hsole : pre = [] → post ++ new = [] := by
    intro hnil
    have hlength := hfirst (by rw [hstart, hnil]; rfl)
    rw [entries_render hplain, hnil, List.nil_append, List.length_cons] at hlength
    exact List.length_eq_zero_iff.1 (by omega)
  obtain ⟨pre', hcut, -, hplain'⟩ := renameText_render (fun a ha => hplain a (List.mem_append_left _ ha))
    (hplain e (by simp)) (hown.trans (congrArg some hstart)) hlen hsole
  rw [hcut] at hbuf
  refine ⟨pre' ++ (post ++ new), (Option.some.inj hbuf).symm, fun a ha => ?_, fun h => (nomatch h),
      fun a ha => ?_,
    fun h => (nomatch h)⟩
  · rcases List.mem_append.1 ha with ha | ha
    · exact hplain' a ha
    · exact hplain a (List.mem_append_right _ (List.mem_cons_of_mem e ha))
  · exact List.mem_append_right _ (List.mem_append_right _ ha)

theorem move (h : Kept l₀ new l (some e) dstName .cut) (hdst : semi ∉ dstName) :
    Kept l₀ new (l ++ [(dstName, filename (n2i e.2))]) (some e) dstName .moved where
  plain := by
    intro e' he'
    rcases List.mem_append.1 he' with he' | he'
    · exact h.plain e' he'
    · rw [List.mem_singleton.1 he']
      exact ⟨hdst, semi_not_mem_filename _, filename_ne_nil _⟩
  uncut := fun hstage => nomatch hstage
  created := fun e' he' => List.mem_append_left _ (h.created e' he')
  moved := fun _ => ⟨e, rfl, by simp⟩

end Kept

section
variable {d : UInt64} {l₀ : List (Str × Str)} {name srcName dstName : Str}

def Creating.new (name : Str) (g : Creating) : List (Str × Str) :=
  if g.entered then [(name, filename (g.made.getD 0))] else []

/-- How far the client, with `q` left to do, and the namenode, with `q'`, have come, and what the
directory holds. -/
structure Racing (d : UInt64) (l₀ : List (Str × Str)) (name srcName dstName : Str) (q q' : M Outcome)
    (s : Watched) (c : Creating) (m : Moving) (l : List (Str × Str)) : Prop where
  creating : q.Wp (createOk d name) createAct
    (fun o g => ∀ ino, o = .created .ok ino → g.entered = true ∧ g.made = some ino) c
  moving : q'.Wp (moveOk d srcName dstName (findEntry (render l₀) srcName))
    (moveAct srcName (findEntry (render l₀) srcName))
    (fun o g => o = .renamed (some true) → g.stage = .moved) m
  seen_client : s.seen .client = c.seen
  seen_namenode : s.seen .namenode = m.seen
  cuttable : m.stage = .before → findEntry m.seen srcName ≠ none → Cuttable m.seen srcName
  dir : s.world.files.dir d = some (render l)
  kept : Kept l₀ (c.new name) l (findEntry (render l₀) srcName) dstName m.stage

theorem dir_of_put {t : Side} {w w' : World Side} {buf dirList : Str} {r : Reply (.put d buf)}
    (hdir : w.files.dir d = some dirList) (hserve : World.serve t (.put d buf) w r w') :
    w'.files.dir d = some buf := by
  have hfiles : w'.files = w.files.put d buf := hserve.1.2
  rw [hfiles, Files.dir_put, if_pos rfl, hdir, Option.map_some]

theorem dir_of_create {t : Side} {w w' : World Side} {type : UInt32} {dirList : Str}
    {r : Reply (.create type)}
    (hdir : w.files.dir d = some dirList) (hserve : World.serve t (.create type) w r w') :
    w'.files.dir d = some dirList := by
  obtain ⟨⟨-, hfree, hfiles⟩, -⟩ := hserve
  have hne : d ≠ r.2 := by
    rintro rfl
    rw [Files.dir_eq_some.1 hdir] at hfree
    cases hfree
  rw [hfiles, Files.dir_update_of_ne _ hne, hdir]

theorem Racing.client_put {buf : Str} {next : Reply (.put d buf) → M Outcome} {q' : M Outcome}
    {s s' : Watched} {c : Creating} {m : Moving} {l : List (Str × Str)}
    (h : Racing d l₀ name srcName dstName (.call (.put d buf) next) q' s c m l) (hname : semi ∉ name)
    {r : Reply (.put d buf)} (hok : SeenLast d srcName .client (.put d buf) s)
    (hserve : Watched.serve d .client (.put d buf) s r s') :
    ∃ c' l', Racing d l₀ name srcName dstName (next r) q' s' c' m l' := by
  obtain ⟨hworld, hseen⟩ := hserve
  obtain ⟨⟨-, hentered, ino, hmade, hbuf⟩, hnext⟩ := h.creating
  have hseen' : s.seen .client = render l := by
    rw [← Files.dir_eq_text h.dir]
    exact (hok rfl).symm
  have hkept := h.kept
  rw [Creating.new, if_neg (by rw [hentered]; exact Bool.false_ne_true)] at hkept
  have hplain : Plain (name, filename ino) := ⟨hname, semi_not_mem_filename ino, filename_ne_nil ino⟩
  refine ⟨⟨buf, c.made, true⟩, l ++ [(name, filename ino)], hnext r _ rfl, h.moving, ?_, ?_, h.cuttable,
      ?_, ?_⟩
  · rw [hseen, noted, if_pos rfl, Function.update_self]
  · rw [hseen, noted, if_pos rfl, Function.update_of_ne (by decide), h.seen_namenode]
  · rw [dir_of_put h.dir hworld, hbuf, ← h.seen_client, hseen', addEntry_render]
  · rw [Creating.new, if_pos rfl, hmade]
    exact hkept.enter hplain

theorem Racing.client {call : Call} {next : Reply call → M Outcome} {q' : M Outcome} {s s' : Watched}
    {c : Creating}
    {m : Moving} {l : List (Str × Str)} (h : Racing d l₀ name srcName dstName (.call call next) q' s c m l)
    (hname : semi ∉ name) {r : Reply call} (hok : SeenLast d srcName .client call s)
    (hserve : Watched.serve d .client call s r s') :
    ∃ c' l', Racing d l₀ name srcName dstName (next r) q' s' c' m l' := by
  obtain ⟨hworld, hseen⟩ := hserve
  obtain ⟨hcall, hnext⟩ := h.creating
  -- the calls that leave the directory as it is
  have hquiet : ∀ c', createAct call c r c' → s'.world.files.dir d = some (render l) →
      s'.seen .client = c'.seen → s'.seen .namenode = s.seen .namenode → c'.new name = c.new name →
      ∃ c' l', Racing d l₀ name srcName dstName (next r) q' s' c' m l' := by
    intro c' hact hdir hclient hnamenode hnew
    exact ⟨c', l, hnext r c' hact, h.moving, hclient, hnamenode.trans h.seen_namenode, h.cuttable, hdir,
      hnew ▸ h.kept⟩
  have hsame : noted d .client call r s.seen = s.seen → createAct call c r c →
      s'.world.files.dir d = some (render l) →
      ∃ c' l', Racing d l₀ name srcName dstName (next r) q' s' c' m l' := by
    intro hnoted hact hdir
    rw [hnoted] at hseen
    exact hquiet c hact hdir (by rw [hseen, h.seen_client]) (by rw [hseen]) rfl
  cases call with
  | create type =>
    refine hquiet { c with made := some r.2 } rfl (dir_of_create h.dir hworld) ?_ ?_ ?_
    · rw [hseen]
      exact h.seen_client
    · rw [hseen]
      rfl
    · have hentered : c.entered = false := hcall
      simp only [Creating.new, hentered]
      rfl
  | get id =>
    have hid : id = d := hcall
    obtain ⟨⟨hr, hfiles⟩, -⟩ := hworld
    refine hquiet { c with seen := r.2 } ⟨by rw [hr], rfl⟩ (by rw [hfiles]; exact h.dir) ?_ ?_ rfl
    · rw [hseen, noted, if_pos hid, Function.update_self]
    · rw [hseen, noted, if_pos hid, Function.update_of_ne (by decide)]
  | put id buf =>
    obtain rfl : id = d := hcall.1
    exact h.client_put hname hok ⟨hworld, hseen⟩
  | getattr id => exact hsame rfl rfl (by rw [hworld.1.2.2.2]; exact h.dir)
  | acquire lid => exact hsame rfl rfl (by rw [hworld.2]; exact h.dir)
  | release lid => exact hsame rfl rfl (by rw [hworld.2]; exact h.dir)
  | _ => exact hcall.elim

theorem Racing.namenode_get {next : Reply (.get d) → M Outcome} {q : M Outcome} {s s' : Watched}
    {c : Creating}
    {m : Moving} {l : List (Str × Str)} (h : Racing d l₀ name srcName dstName q (.call (.get d) next) s c m l)
    (hnew : ∀ e ∈ c.new name, e.1 ≠ srcName) {r : Reply (.get d)}
    (hok : SeenLast d srcName .namenode (.get d) s) (hserve : Watched.serve d .namenode (.get d) s r s') :
    ∃ m' l', Racing d l₀ name srcName dstName q (next r) s' c m' l' := by
  obtain ⟨⟨⟨hr, hfiles⟩, -⟩, hseen⟩ := hserve
  have htext := Files.dir_eq_text h.dir
  rw [htext] at hr
  have hread : Cuttable (render l) srcName ∨ findEntry (render l) srcName = none := by
    by_cases hlisted : findEntry (render l) srcName = none
    · exact .inr hlisted
    · have hcuttable := hok rfl
      rw [htext] at hcuttable
      exact .inl (hcuttable hlisted)
  refine ⟨{ m with seen := r.2 }, l, h.creating, h.moving.2 r _ ⟨by rw [hr], fun hstage => ?_, rfl⟩, ?_,
      ?_, ?_,
    by rw [hfiles]; exact h.dir, h.kept⟩
  · have hkept := h.kept
    rw [hstage] at hkept
    rw [hr]
    exact hkept.findEntry_eq hnew
  · rw [hseen, noted, if_pos rfl, Function.update_of_ne (by decide), h.seen_client]
  · rw [hseen, noted, if_pos rfl, Function.update_self]
  · intro _ hlisted
    rw [hr] at hlisted ⊢
    exact hread.resolve_right hlisted

/-- The namenode writes the directory: first without the entry, then with it under the new name. -/
theorem Racing.namenode_put {buf : Str} {next : Reply (.put d buf) → M Outcome} {q : M Outcome}
    {s s' : Watched} {c : Creating} {m : Moving} {l : List (Str × Str)}
    (h : Racing d l₀ name srcName dstName q (.call (.put d buf) next) s c m l)
    (hnew : ∀ e ∈ c.new name, e.1 ≠ srcName) (hdst : semi ∉ dstName) {r : Reply (.put d buf)}
    (hok : SeenLast d srcName .namenode (.put d buf) s)
    (hserve : Watched.serve d .namenode (.put d buf) s r s') :
    ∃ m' l', Racing d l₀ name srcName dstName q (next r) s' c m' l' := by
  obtain ⟨hworld, hseen⟩ := hserve
  obtain ⟨⟨-, e, hfound, hstage⟩, hnext⟩ := h.moving
  have hseen' : m.seen = render l := by
    rw [← h.seen_namenode, ← Files.dir_eq_text h.dir]
    exact (hok rfl).symm
  have hclient : s'.seen .client = c.seen := by
    rw [hseen, noted, if_pos rfl, Function.update_of_ne (by decide), h.seen_client]
  have hnamenode : s'.seen .namenode = buf := by
    rw [hseen, noted, if_pos rfl, Function.update_self]
  have hdir := dir_of_put h.dir hworld
  have hkept := h.kept
  rcases hstage with ⟨hbefore, hcut⟩ | ⟨hcut, hbuf⟩
  · rw [hbefore] at hkept
    have hlisted : findEntry m.seen srcName ≠ none := by
      rw [hseen', hkept.findEntry_eq hnew, hfound]
      exact Option.some_ne_none e
    have hcuttable := h.cuttable hbefore hlisted
    rw [hseen'] at hcuttable hcut
    obtain ⟨l', hl', hkept'⟩ := hkept.cut hfound hcuttable hcut
    exact ⟨⟨buf, .cut⟩, l', h.creating, hnext r _ (by rw [moveAct, hbefore]; rfl), hclient, hnamenode,
      fun hstage => (nomatch hstage), hl' ▸ hdir, hkept'⟩
  · rw [hcut, hfound] at hkept
    refine ⟨⟨buf, .moved⟩, l ++ [(dstName, filename (n2i e.2))], h.creating,
      hnext r _ (by rw [moveAct, hcut]; rfl), hclient, hnamenode, fun hstage => (nomatch hstage), ?_, ?_⟩
    · rw [hdir, hbuf, hseen', addEntry_render]
    · rw [hfound]
      exact hkept.move hdst

theorem Racing.namenode {call : Call} {next : Reply call → M Outcome} {q : M Outcome} {s s' : Watched}
    {c : Creating}
    {m : Moving} {l : List (Str × Str)} (h : Racing d l₀ name srcName dstName q (.call call next) s c m l)
    (hne : name ≠ srcName) (hdst : semi ∉ dstName) {r : Reply call}
    (hok : SeenLast d srcName .namenode call s) (hserve : Watched.serve d .namenode call s r s') :
    ∃ m' l', Racing d l₀ name srcName dstName q (next r) s' c m' l' := by
  obtain ⟨hworld, hseen⟩ := hserve
  obtain ⟨hcall, hnext⟩ := h.moving
  have hnew : ∀ e ∈ c.new name, e.1 ≠ srcName := by
    intro e he
    unfold Creating.new at he
    split_ifs at he
    · rw [List.mem_singleton.1 he]
      exact hne
    · cases he
  cases call with
  | getattr id =>
    have hid : id = d := hcall
    subst hid
    obtain ⟨⟨hr, htype, -, hfiles⟩, -⟩ := hworld
    have hdir := Files.dir_eq_some.1 h.dir
    refine ⟨m, l, h.creating, hnext r m ⟨hr, ?_, rfl⟩, ?_, ?_, h.cuttable, by rw [hfiles]; exact h.dir,
      h.kept⟩
    · rw [htype, hdir]
      rfl
    · rw [hseen]
      exact h.seen_client
    · rw [hseen]
      exact h.seen_namenode
  | get id =>
    obtain rfl : id = d := hcall
    exact h.namenode_get hnew hok ⟨hworld, hseen⟩
  | put id buf =>
    obtain rfl : id = d := hcall.1
    exact h.namenode_put hnew hdst hok ⟨hworld, hseen⟩
  | _ => exact hcall.elim

theorem Racing.step {p p' : Pool Call Reply Side Watched Outcome} (hname : semi ∉ name)
    (hdst : semi ∉ dstName) (hne : name ≠ srcName)
    (h : ∃ c m l, Racing d l₀ name srcName dstName (p.prog .client) (p.prog .namenode) p.state c m l)
    (hstep : Pool.Step (fun t c s r s' => SeenLast d srcName t c s ∧ Watched.serve d t c s r s') p p') :
    ∃ c m l, Racing d l₀ name srcName dstName (p'.prog .client) (p'.prog .namenode) p'.state c m l := by
  obtain ⟨c, m, l, h⟩ := h
  obtain @⟨t, call, next, r, s', hprog, hok, hserve⟩ := hstep
  cases t with
  | client =>
    rw [hprog] at h
    obtain ⟨c', l', h'⟩ := h.client hname hok hserve
    refine ⟨c', m, l', ?_⟩
    dsimp only
    rw [Function.update_self, Function.update_of_ne (by decide)]
    exact h'
  | namenode =>
    rw [hprog] at h
    obtain ⟨m', l', h'⟩ := h.namenode hne hdst hok hserve
    refine ⟨c, m', l', ?_⟩
    dsimp only
    rw [Function.update_self, Function.update_of_ne (by decide)]
    exact h'

/-- As long as neither side is disturbed, what it has reported as done is in the directory. -/
theorem race_outcomes_kept {files : Files} {lock : UInt64 → Option Side}
    (hdir : files.dir d = some (render l₀))
    (hplain : ∀ e ∈ l₀, Plain e) (hname : semi ∉ name) (hdst : semi ∉ dstName) (hne : name ≠ srcName)
    {isDir : Bool} {out : UInt64} {p : Pool Call Reply Side Watched Outcome}
    (hrun : Relation.ReflTransGen
      (Pool.Step fun t c s r s' => SeenLast d srcName t c s ∧ Watched.serve d t c s r s')
      ⟨⟨⟨files, lock⟩, fun _ => []⟩, racers d isDir name out srcName dstName⟩ p) :
    (∀ ino, p.prog .client = .pure (.created .ok ino) →
      (name, filename ino) ∈ entries (text (p.state.world.files d))) ∧
    (p.prog .namenode = .pure (.renamed (some true)) → ∃ e, findEntry (render l₀) srcName = some e ∧
      (dstName, filename (n2i e.2)) ∈ entries (text (p.state.world.files d))) := by
  have hrace : ∃ c m l, Racing d l₀ name srcName dstName (p.prog .client)
      (p.prog .namenode) p.state c m l := by
    induction hrun with
    | refl =>
      refine ⟨⟨[], none, false⟩, ⟨[], .before⟩, l₀, creates_racers out srcName dstName [], ?_, rfl, rfl,
        fun _ hlisted => absurd rfl hlisted, hdir, hplain, fun _ => (List.append_nil l₀).symm,
        fun e he => (nomatch he), fun h => (nomatch h)⟩
      refine (moves_rename []).bind fun r g h => ?_
      intro heq
      cases heq
      exact h rfl
    | tail _ hstep ih => exact Racing.step hname hdst hne ih hstep
  obtain ⟨c, m, l, h⟩ := hrace
  rw [Files.dir_eq_text h.dir, entries_render h.kept.plain]
  constructor
  · intro ino hdone
    have hcreating := h.creating
    rw [hdone] at hcreating
    obtain ⟨hentered, hmade⟩ := hcreating ino rfl
    apply h.kept.created
    rw [Creating.new, if_pos hentered, hmade]
    exact List.mem_singleton_self _
  · intro hdone
    have hmoving := h.moving
    rw [hdone] at hmoving
    exact h.kept.moved (hmoving rfl)

end

instance (d : UInt64) (srcName : Str) (t : Side) (c : Call) (s : Watched) :
    Decidable (SeenLast d srcName t c s) :=
  match t, c with
  | .namenode, .get id => inferInstanceAs (Decidable (id = d →
      findEntry (text (s.world.files d)) srcName ≠ none → Cuttable (text (s.world.files d)) srcName))
  | .client, .get _ => .isTrue trivial
  | .client, .put id _ => inferInstanceAs (Decidable (id = d → text (s.world.files d) = s.seen .client))
  | .namenode, .put id _ => inferInstanceAs (Decidable (id = d → text (s.world.files d) = s.seen .namenode))
  | .client, .create _ | .client, .getattr _ | .client, .remove _ | .client, .appendBlock _
  | .client, .getBlockIds _ | .client, .readBlock _ | .client, .writeBlock .. | .client, .complete ..
  | .client, .acquire _ | .client, .release _ => .isTrue trivial
  | .namenode, .create _ | .namenode, .getattr _ | .namenode, .remove _ | .namenode, .appendBlock _
  | .namenode, .getBlockIds _ | .namenode, .readBlock _ | .namenode, .writeBlock .. | .namenode, .complete ..
  | .namenode, .acquire _ | .namenode, .release _ => .isTrue trivial

def listing (dirList : Str) : Files :=
  Function.update (Function.update (Function.update (fun _ => none) 1 (some (FileType.dir.code, dirList)))
    2 (some (FileType.file.code, []))) 3 (some (FileType.file.code, []))

/-- `a` becomes `c` while a client that makes `b` has looked for it and has not yet read the directory
again. -/
theorem race_outcomes_kept_turns : ∃ p : Pool Call Reply Side Watched Outcome,
    p.prog .client = .pure (.created .ok 4) ∧ p.prog .namenode = .pure (.renamed (some true)) ∧
      ([98], filename 4) ∈ entries (text (p.state.world.files 1)) ∧
        ∃ e, findEntry (render [([120], [50]), ([97], [51])]) [97] = some e ∧
          ([99], filename (n2i e.2)) ∈ entries (text (p.state.world.files 1)) := by
  let reply (t : Side) (c : Call) (s : Watched) : Option (Reply c × Watched) :=
    if SeenLast 1 [97] t c s then
      (World.reply t c s.world).map fun q => (q.1, ⟨q.2, noted 1 t c q.1 s.seen⟩)
    else none
  let l₀ : List (Str × Str) := [([120], [50]), ([97], [51])]
  let start : Pool Call Reply Side Watched Outcome :=
    ⟨⟨⟨listing (render l₀), fun _ => none⟩, fun _ => []⟩, racers 1 false [98] 0 [97] [99]⟩
  have hplay : (Pool.play reply (List.replicate 4 .namenode ++ List.replicate 3 .client ++
      List.replicate 3 .namenode ++ List.replicate 4 .client) start).any (fun p =>
        (p.prog .client).value? = some (.created .ok 4) ∧
          (p.prog .namenode).value? = some (.renamed (some true))) = true := by
    decide +kernel
  obtain ⟨p, hp, hcheck⟩ := (Option.any_eq_true _ _).1 hplay
  obtain ⟨hclient, hnamenode⟩ := of_decide_eq_true hcheck
  have hrun : Relation.ReflTransGen
      (Pool.Step fun t c s r s' => SeenLast 1 [97] t c s ∧ Watched.serve 1 t c s r s') start p := by
    refine Pool.run_of_play (fun t c s r s' h => ?_) hp
    dsimp only [reply] at h
    split_ifs at h with hok
    obtain ⟨⟨r', w'⟩, hreply, heq⟩ := Option.map_eq_some_iff.1 h
    cases heq
    exact ⟨hok, World.serve_of_reply hreply, rfl⟩
  have hdir : (listing (render l₀)).dir 1 = some (render l₀) := Files.dir_eq_some.2 (by decide)
  have hplain : ∀ e ∈ l₀, Plain e := by
    unfold Plain
    decide
  obtain ⟨hcreated, hmoved⟩ := race_outcomes_kept hdir hplain (by decide) (by decide) (by decide) hrun
  exact ⟨p, Prog.eq_pure_of_value? hclient, Prog.eq_pure_of_value? hnamenode,
    hcreated 4 (Prog.eq_pure_of_value? hclient),
    hmoved (Prog.eq_pure_of_value? hnamenode)⟩

/-- The client makes `b` after the namenode has read the directory to rename `a`. -/
theorem race_create_lost : ∃ p : Pool Call Reply Side (World Side) Outcome,
    Relation.ReflTransGen (Pool.Step World.serve)
      ⟨⟨listing [97, 59, 50], fun _ => none⟩, racers 1 false [98] 0 [97] [99]⟩ p ∧
    p.prog .client = .pure (.created .ok 4) ∧ p.prog .namenode = .pure (.renamed (some true)) ∧
      ([98], filename 4) ∉ entries (text (p.state.files 1)) := by
  have hplay : (Pool.play World.reply (List.replicate 5 .namenode ++ List.replicate 7 .client ++
      List.replicate 2 .namenode) ⟨⟨listing [97, 59, 50], fun _ => none⟩,
      racers 1 false [98] 0 [97] [99]⟩).any (fun p => (p.prog .client).value? = some (.created .ok 4) ∧
        (p.prog .namenode).value? = some (.renamed (some true)) ∧
          ([98], filename 4) ∉ entries (text (p.state.files 1))) = true := by
    decide +kernel
  obtain ⟨p, hp, hcheck⟩ := (Option.any_eq_true _ _).1 hplay
  obtain ⟨hclient, hnamenode, hlost⟩ := of_decide_eq_true hcheck
  exact ⟨p, World.run_of_play hp, Prog.eq_pure_of_value? hclient, Prog.eq_pure_of_value? hnamenode, hlost⟩

end Yfs.Hdfs
