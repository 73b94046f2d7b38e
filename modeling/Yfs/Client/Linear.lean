import Yfs.Client.Atomic
import Yfs.Lib.Trace

/-! Any number of clients at once, at the granularity of single extent and lock calls. Each operation looks
like one step. -/
namespace Yfs.Client.Atomic
open Yfs.Lib Yfs.Extent

inductive Event (T : Type) where
  | invoke (t : T) (op : Op)
  | ret (t : T) (op : Op) (out : Out)

def Out.new : Out → Set UInt64
  | .made (.ok, id) => {id}
  | _ => ∅

/-- The clients over the extent and the lock server: each one is idle or has some of an operation left.
`known` are the inums that were there at first or that a client has got from `create` or `mkdir`. -/
structure Clients (T : Type) where
  world : World T
  run : T → Option (Op × M Out)
  known : Set UInt64

def Clients.start (T : Type) (files : Files) : Clients T :=
  ⟨⟨files, fun _ => none⟩, fun _ => none, {id | files id ≠ none}⟩

/-- A client calls an operation, gets an answer from one of the servers, or returns. -/
inductive Clients.Step {T : Type} [DecidableEq T] : Clients T → Option (Event T) → Clients T → Prop
  | invoke {c : Clients T} {t : T} {op : Op} (hidle : c.run t = none) (hknown : op.ino ∈ c.known)
      (hfits : op.Fits c.world.files) :
      Step c (some (.invoke t op)) { c with run := Function.update c.run t (some (op, op.call)) }
  | call {c : Clients T} {t : T} {op : Op} {k : Call} {next : Reply k → M Out} {r : Reply k} {w' : World T}
      (hrun : c.run t = some (op, .call k next)) (hserve : World.serve t k c.world r w') :
      Step c none { c with world := w', run := Function.update c.run t (some (op, next r)) }
  | ret {c : Clients T} {t : T} {op : Op} {out : Out} (hrun : c.run t = some (op, .pure out)) :
      Step c (some (.ret t op out)) { c with run := Function.update c.run t none, known := c.known ∪ out.new }

structure Atoms (T : Type) where
  files : Files
  run : T → Option (Op × Option Out)

def Atoms.start (T : Type) (files : Files) : Atoms T := ⟨files, fun _ => none⟩

/-- Between its call and its return, an operation is done at once. -/
inductive Atoms.Step {T : Type} [DecidableEq T] : Atoms T → Option (Event T) → Atoms T → Prop
  | invoke {s : Atoms T} {t : T} {op : Op} (hidle : s.run t = none) :
      Step s (some (.invoke t op)) { s with run := Function.update s.run t (some (op, none)) }
  | commit {s : Atoms T} {t : T} {op : Op} {out : Out} {files' : Files} (hrun : s.run t = some (op, none))
      (hexec : op.body.Exec Files.serve s.files out files') :
      Step s none ⟨files', Function.update s.run t (some (op, some out))⟩
  | ret {s : Atoms T} {t : T} {op : Op} {out : Out} (hrun : s.run t = some (op, some out)) :
      Step s (some (.ret t op out)) { s with run := Function.update s.run t none }

/-- A `lookup` that has seen a directory. -/
def lookRest (parent : UInt64) (name : Str) (out : UInt64) : M Out := .call (.get parent) fun r =>
  if r.1 = .ok then .pure (.found (match findEntry r.2 name with
    | some e => (.ok, true, n2i e.2)
    | none => (.noent, false, out)))
  else .pure (.found (.ioerr, false, out))

/-- Where client `t` is in both machines, with files `g` in the atomic one and new inodes `u` of its own. -/
inductive At {T : Type} (w : World T) (g u : Files) (t : T) :
    Option (Op × M Out) → Option (Op × Option Out) → Prop
  | idle (hu : ∀ k, u k = none) : At w g u t none none
  | waiting {op : Op} (hu : ∀ k, u k = none) (hlive : g op.ino ≠ none) (hfits : op.Fits g) :
      At w g u t (some (op, op.call)) (some (op, none))
  | inside {op : Op} {q : M Out} (hlock : w.lock op.ino = some t) (hlive : g op.ino ≠ none)
      (hq : Quiet op.ino (w.files op.ino) q) (hcall : ∀ a, q ≠ .pure a)
      (hin : Inside op q (w.files op.ino) u) : At w g u t (some (op, q.bind op.fin)) (some (op, none))
  | looking {parent out : UInt64} {name : Str} (hu : ∀ k, u k = none) (hlive : g parent ≠ none)
      (hdir : typeOf (g parent) = FileType.dir.code) :
      At w g u t (some (.lookup parent name out, lookRest parent name out))
        (some (.lookup parent name out, none))
  | closing {op : Op} {out : Out} (hu : ∀ k, u k = none) (hlock : w.lock op.ino = some t)
      (hnew : ∀ id ∈ out.new, g id ≠ none) :
      At w g u t (some (op, .call (.release op.ino) fun _ => .pure out)) (some (op, some out))
  | done {op : Op} {out : Out} (hu : ∀ k, u k = none) (hnew : ∀ id ∈ out.new, g id ≠ none) :
      At w g u t (some (op, .pure out)) (some (op, some out))

/-- The files of the clients are the ones of the atomic machine, and the new inodes of the clients that are
inside. -/
structure Link {T : Type} (c : Clients T) (s : Atoms T) (u : T → Files) : Prop where
  known : ∀ id ∈ c.known, s.files id ≠ none
  fresh : ∀ t k, u t k ≠ none → s.files k = none ∧ c.world.files k = u t k
  apart : ∀ t t' k, u t k ≠ none → u t' k ≠ none → t = t'
  same : ∀ k, (∀ t, u t k = none) → c.world.files k = s.files k
  thread : ∀ t, At c.world s.files (u t) t (c.run t) (s.run t)

section
variable {T : Type} {w w' : World T} {g g' u : Files} {t : T} {a : Option (Op × M Out)}
  {b : Option (Op × Option Out)} {c : Clients T} {s : Atoms T} {us : T → Files}

theorem world_ext (hfiles : w'.files = w.files) (hlock : w'.lock = w.lock) : w' = w := by
  cases w
  cases w'
  cases hfiles
  cases hlock
  rfl

def Keeps (g g' : Files) : Prop := ∀ k, g k ≠ none → g' k ≠ none ∧ typeOf (g' k) = typeOf (g k)

private theorem fits_of_keeps {op : Op} (h : Keeps g g') (hlive : g op.ino ≠ none) (hfits : op.Fits g) :
    op.Fits g' := by
  cases op with
  | readdir ino => exact (h ino hlive).2.trans hfits
  | _ => trivial

/-- A client does not notice what others do to files that it has not locked. -/
theorem At.frame (h : At w g u t a b) (hkeeps : Keeps g g')
    (hlock : ∀ lid, w.lock lid = some t → w'.lock lid = some t ∧
      (g lid ≠ none → w'.files lid = w.files lid)) : At w' g' u t a b := by
  cases h with
  | idle hu => exact .idle hu
  | waiting hu hlive hfits => exact .waiting hu (hkeeps _ hlive).1 (fits_of_keeps hkeeps hlive hfits)
  | inside hl hlive hq hcall hin =>
    obtain ⟨hl', hfile⟩ := hlock _ hl
    rw [← hfile hlive] at hq hin
    exact .inside hl' (hkeeps _ hlive).1 hq hcall hin
  | looking hu hlive hdir => exact .looking hu (hkeeps _ hlive).1 ((hkeeps _ hlive).2.trans hdir)
  | closing hu hl hnew => exact .closing hu (hlock _ hl).1 fun id hid => (hkeeps id (hnew id hid)).1
  | done hu hnew => exact .done hu fun id hid => (hkeeps id (hnew id hid)).1

theorem Link.same_of_live (h : Link c s us) {k : UInt64} (hk : s.files k ≠ none) :
    c.world.files k = s.files k := by
  refine h.same k fun t => ?_
  by_contra hne
  exact hk (h.fresh t k hne).1

theorem Link.none_of_ne (h : Link c s us) {t' : T} (ht : t' ≠ t) {k : UInt64} (hk : us t' k ≠ none) :
    us t k = none := by
  by_contra hmine
  exact ht (h.apart t' t k hk hmine)

theorem Link.same_of_rest (h : Link c s us) {k : UInt64} (hk : us t k = none)
    (hrest : ∀ t', t' ≠ t → us t' k = none) : c.world.files k = s.files k := by
  refine h.same k fun t' => ?_
  by_cases ht : t' = t
  · rw [ht, hk]
  · exact hrest t' ht

theorem keeps_refl (g : Files) : Keeps g g := fun _ hk => ⟨hk, rfl⟩

theorem body_ne_pure (op : Op) (out : Out) : op.body ≠ .pure out := by
  have hcall : ∃ k next, op.body = .call k next := by
    cases op <;> exact ⟨_, _, rfl⟩
  obtain ⟨k, next, heq⟩ := hcall
  rw [heq]
  intro h
  cases h

theorem lookup_body_eq (parent : UInt64) (name : Str) (out : UInt64) : (Op.lookup parent name out).body =
    .call (.getattr parent) fun r => if (decide (r.1 = .ok) && decide (r.2.type = FileType.dir.code)) = true
      then lookRest parent name out else .pure (.found (.ok, false, out)) := by
  refine congrArg (Prog.call (Call.getattr parent)) (funext fun r => ?_)
  change Prog.bind (if (decide (r.1 = .ok) && decide (r.2.type = FileType.dir.code)) = true then _ else _) _
    = _
  split_ifs
  · refine congrArg (Prog.call (Call.get parent)) (funext fun r => ?_)
    obtain ⟨status, dirList⟩ := r
    by_cases hok : status = .ok
    · simp only [hok, if_true, Prog.bind]
      cases findEntry dirList name <;> rfl
    · simp only [hok, if_false, Prog.bind]
      rfl
  · rfl

theorem exec_map {α β : Type} {f : α → β} {p : M α} {b : β} (h : (f <$> p).Exec Files.serve g b g') :
    ∃ a, p.Exec Files.serve g a g' ∧ b = f a := by
  rw [map_eq_pure_bind] at h
  obtain ⟨a, g₁, hp, rfl, rfl⟩ := Prog.exec_bind.1 h
  exact ⟨a, hp, rfl⟩

theorem live_put {k : UInt64} (id : UInt64) (buf : Str) (h : g k ≠ none) : g.put id buf k ≠ none := by
  unfold Files.put
  by_cases hk : k = id
  · rw [hk, Function.update_self]
    rw [hk] at h
    exact fun hnone => h (Option.map_eq_none_iff.1 hnone)
  · rwa [Function.update_of_ne hk]

private theorem added_live {type : FileType} {parent : UInt64} {name : Str} {r : YfsStatus × UInt64}
    (h : Added g type parent name r g') : ∀ id ∈ (Out.made r).new, g' id ≠ none := by
  obtain ⟨status, ino⟩ := r
  rcases h with ⟨e, -, hr, -⟩ | ⟨-, -, hr, rfl⟩
  · obtain rfl : status = .exist := hr
    exact fun id hid => absurd hid (Set.notMem_empty id)
  · obtain rfl : status = .ok := hr
    rintro id rfl
    refine live_put _ _ ?_
    rw [Files.grow, Function.update_self]
    exact Option.some_ne_none _

theorem new_live {op : Op} {out : Out} (hexec : op.body.Exec Files.serve g out g') :
    ∀ id ∈ out.new, g' id ≠ none := by
  have hadd : ∀ type parent name old, (Out.made <$> nlockAdd type parent name old).Exec Files.serve g out g' →
      ∀ id ∈ out.new, g' id ≠ none := by
    intro type parent name old h
    obtain ⟨r, hr, rfl⟩ := exec_map h
    refine added_live (Prog.Wp.result id ?_ (leads_nlockAdd g type parent name old) hr)
    intro c w r w' hserve
    cases c <;> first | exact hserve | exact hserve.elim
  cases op with
  | create parent name old => exact hadd .file parent name old hexec
  | mkdir parent name old => exact hadd .dir parent name old hexec
  | _ =>
    obtain ⟨r, -, rfl⟩ := exec_map hexec
    exact fun id hid => absurd hid (Set.notMem_empty id)

theorem at_fin {op : Op} {out : Out} (hl : w.lock op.ino = some t) (hnew : ∀ id ∈ out.new, g id ≠ none) :
    At w g (fun _ => none) t (some (op, op.fin out)) (some (op, some out)) := by
  unfold Op.fin
  split
  · exact .done (fun _ => rfl) hnew
  · exact .closing (fun _ => rfl) hl hnew

variable [DecidableEq T]

theorem Link.move (h : Link c s us) {u' : Files} {known' : Set UInt64} (hat : At w' g' u' t a b)
    (hkeeps : Keeps s.files g')
    (hlock : ∀ t', t' ≠ t → ∀ lid, c.world.lock lid = some t' →
      w'.lock lid = some t' ∧ (s.files lid ≠ none → w'.files lid = c.world.files lid))
    (hmine : ∀ k, u' k ≠ none → g' k = none ∧ w'.files k = u' k)
    (hothers : ∀ t', t' ≠ t → ∀ k, us t' k ≠ none → g' k = none ∧ w'.files k = us t' k ∧ u' k = none)
    (hsame : ∀ k, u' k = none → (∀ t', t' ≠ t → us t' k = none) → w'.files k = g' k)
    (hknown : ∀ id ∈ known', g' id ≠ none) :
    Link ⟨w', Function.update c.run t a, known'⟩ ⟨g', Function.update s.run t b⟩
      (Function.update us t u') := by
  have hother : ∀ {t'}, t' ≠ t → Function.update us t u' t' = us t' := fun ht => Function.update_of_ne ht _ _
  constructor
  · exact hknown
  · intro t' k hk
    by_cases ht : t' = t
    · subst ht
      rw [Function.update_self] at hk ⊢
      exact hmine k hk
    · rw [hother ht] at hk ⊢
      obtain ⟨hg, hw, -⟩ := hothers t' ht k hk
      exact ⟨hg, hw⟩
  · intro t₁ t₂ k h₁ h₂
    by_cases ht₁ : t₁ = t <;> by_cases ht₂ : t₂ = t
    · rw [ht₁, ht₂]
    · rw [hother ht₂] at h₂
      rw [ht₁, Function.update_self] at h₁
      exact absurd (hothers t₂ ht₂ k h₂).2.2 h₁
    · rw [hother ht₁] at h₁
      rw [ht₂, Function.update_self] at h₂
      exact absurd (hothers t₁ ht₁ k h₁).2.2 h₂
    · rw [hother ht₁] at h₁
      rw [hother ht₂] at h₂
      exact h.apart t₁ t₂ k h₁ h₂
  · intro k hk
    refine hsame k ?_ fun t' ht => ?_
    · have hself := hk t
      rwa [Function.update_self] at hself
    · have hk' := hk t'
      rwa [hother ht] at hk'
  · intro t'
    by_cases ht : t' = t
    · subst ht
      simp only [Function.update_self]
      exact hat
    · rw [hother ht]
      simp only [Function.update_of_ne ht]
      exact (h.thread t').frame hkeeps (hlock t' ht)

theorem Link.move_same (h : Link c s us) {known' : Set UInt64} (hat : At w' s.files (us t) t a b)
    (hfiles : w'.files = c.world.files)
    (hlock : ∀ t', t' ≠ t → ∀ lid, c.world.lock lid = some t' → w'.lock lid = some t')
    (hknown : ∀ id ∈ known', s.files id ≠ none) :
    Link ⟨w', Function.update c.run t a, known'⟩ ⟨s.files, Function.update s.run t b⟩ us := by
  have hlink := h.move hat (keeps_refl _) (fun t' ht lid hl => ⟨hlock t' ht lid hl, fun _ => by rw [hfiles]⟩)
    (fun k hk => by rw [hfiles]; exact h.fresh t k hk)
    (fun t' ht k hk => by
      obtain ⟨hg, hw⟩ := h.fresh t' k hk
      exact ⟨hg, by rw [hfiles, hw], h.none_of_ne ht hk⟩)
    (fun k hk hrest => by
      rw [hfiles]
      exact h.same_of_rest hk hrest) hknown
  rwa [Function.update_eq_self] at hlink

/-- A silent step of the atomic machine, or none, leads to a state for `c`. -/
def Matches (s : Atoms T) (c : Clients T) : Prop :=
  ∃ s', (Atoms.Step s none s' ∨ s' = s) ∧ ∃ us, Link c s' us

theorem Link.commit (h : Link c s us) {op : Op} {out : Out} {p : M Out} (hrun : s.run t = some (op, none))
    (hexec : op.body.Exec Files.serve s.files out g')
    (hat : At w' g' (fun _ => none) t (some (op, p)) (some (op, some out))) (hkeeps : Keeps s.files g')
    (hlock : ∀ t', t' ≠ t → ∀ lid, c.world.lock lid = some t' →
      w'.lock lid = some t' ∧ (s.files lid ≠ none → w'.files lid = c.world.files lid))
    (hothers : ∀ t', t' ≠ t → ∀ k, us t' k ≠ none → g' k = none ∧ w'.files k = us t' k)
    (hsame : ∀ k, (∀ t', t' ≠ t → us t' k = none) → w'.files k = g' k) :
    Matches s ⟨w', Function.update c.run t (some (op, p)), c.known⟩ := by
  refine ⟨_, .inl (.commit hrun hexec), _, h.move hat hkeeps hlock (fun k hk => absurd rfl hk) ?_ ?_ ?_⟩
  · intro t' ht k hk
    obtain ⟨hg, hw⟩ := hothers t' ht k hk
    exact ⟨hg, hw, rfl⟩
  · exact fun k _ hrest => hsame k hrest
  · exact fun id hid => (hkeeps id (h.known id hid)).1

/-- What the body has done so far is done at once when it is through, and else it is still inside. -/
theorem Link.settle (h : Link c s us) {op : Op} {q : M Out} {u' : Files} (hrun : s.run t = some (op, none))
    (hlive : s.files op.ino ≠ none) (hl : w'.lock op.ino = some t)
    (hlock : ∀ t', t' ≠ t → ∀ lid, c.world.lock lid = some t' →
      w'.lock lid = some t' ∧ (s.files lid ≠ none → w'.files lid = c.world.files lid))
    (hmine : ∀ k, u' k ≠ none → s.files k = none ∧ w'.files k = u' k)
    (hothers : ∀ t', t' ≠ t → ∀ k, us t' k ≠ none → w'.files k = us t' k ∧ u' k = none)
    (hsame : ∀ k, u' k = none → (∀ t', t' ≠ t → us t' k = none) → w'.files k = s.files k)
    (hq : Quiet op.ino (w'.files op.ino) q) (hin : Inside op q (w'.files op.ino) u') :
    Matches s ⟨w', Function.update c.run t (some (op, q.bind op.fin)), c.known⟩ := by
  by_cases hcall : ∀ out, q ≠ .pure out
  · have hfresh : ∀ t', t' ≠ t → ∀ k, us t' k ≠ none →
        s.files k = none ∧ w'.files k = us t' k ∧ u' k = none :=
      fun t' ht k hk => ⟨(h.fresh t' k hk).1, hothers t' ht k hk⟩
    have hlink := h.move (.inside hl hlive hq hcall hin) (keeps_refl _) hlock hmine hfresh hsame h.known
    rw [← hrun, Function.update_eq_self] at hlink
    exact ⟨s, .inr rfl, _, hlink⟩
  · obtain ⟨out, rfl⟩ := not_forall_not.1 hcall
    have hold : ∀ k, s.files k ≠ none → u' k = none := by
      intro k hk
      by_contra hne
      exact hk (hmine k hne).1
    have hfile : w'.files op.ino = s.files op.ino := by
      refine hsame op.ino (hold _ hlive) fun t' _ => ?_
      by_contra hne
      exact hlive (h.fresh t' _ hne).1
    have hexec : op.body.Exec Files.serve s.files out (joined s.files u') :=
      hin s.files hfile.symm (fun k hk => (hmine k hk).1) out _ ⟨rfl, rfl⟩
    refine h.commit hrun hexec (at_fin hl (new_live hexec)) ?_ hlock ?_ ?_
    · intro k hk
      rw [joined_of_none (hold k hk)]
      exact ⟨hk, rfl⟩
    · intro t' ht k hk
      obtain ⟨hw, hnone⟩ := hothers t' ht k hk
      rw [joined_of_none hnone]
      exact ⟨(h.fresh t' k hk).1, hw⟩
    · intro k hrest
      by_cases hk : u' k = none
      · rw [joined_of_none hk]
        exact hsame k hk hrest
      · rw [joined_of_ne_none hk]
        exact (hmine k hk).2

theorem Link.read_inside (h : Link c s us) {op : Op} {q : M Out} (hrun : s.run t = some (op, none))
    (hl : c.world.lock op.ino = some t) (hlive : s.files op.ino ≠ none)
    (hq : Quiet op.ino (c.world.files op.ino) q) (hin : Inside op q (c.world.files op.ino) (us t)) :
    Matches s ⟨c.world, Function.update c.run t (some (op, q.bind op.fin)), c.known⟩ :=
  h.settle hrun hlive hl (fun _ _ _ hheld => ⟨hheld, fun _ => rfl⟩) (h.fresh t)
    (fun t' ht k hk => ⟨(h.fresh t' k hk).2, h.none_of_ne ht hk⟩) (fun _ hk hrest => h.same_of_rest hk hrest)
    hq hin

theorem Link.create_inside (h : Link c s us) {op : Op} {type : UInt32} {id : UInt64} {q : M Out}
    (hrun : s.run t = some (op, none)) (hl : c.world.lock op.ino = some t) (hlive : s.files op.ino ≠ none)
    (hnew : c.world.files id = none) (hfiles : w'.files = Function.update c.world.files id (some (type, [])))
    (hlock : w'.lock = c.world.lock) (hq : Quiet op.ino (c.world.files op.ino) q)
    (hin : us t id = none →
      Inside op q (c.world.files op.ino) (Function.update (us t) id (some (type, [])))) :
    Matches s ⟨w', Function.update c.run t (some (op, q.bind op.fin)), c.known⟩ := by
  have hnone : ∀ t', us t' id = none := by
    intro t'
    by_contra hk
    exact hk ((h.fresh t' id hk).2.symm.trans hnew)
  have hdead : s.files id = none := (h.same id hnone).symm.trans hnew
  have hino : op.ino ≠ id := by
    rintro rfl
    exact hlive hdead
  have hw : ∀ k, k ≠ id → w'.files k = c.world.files k := by
    intro k hk
    rw [hfiles, Function.update_of_ne hk]
  have hin' := hin (hnone t)
  rw [← hw _ hino] at hin' hq
  refine h.settle hrun hlive (hlock ▸ hl) ?_ ?_ ?_ ?_ hq hin'
  · intro t' _ lid hheld
    refine ⟨hlock ▸ hheld, fun hlid => hw lid ?_⟩
    rintro rfl
    exact hlid hdead
  · intro k hk
    by_cases hkid : k = id
    · rw [hkid, hfiles, Function.update_self, Function.update_self]
      exact ⟨hdead, rfl⟩
    · rw [Function.update_of_ne hkid] at hk ⊢
      rw [hw k hkid]
      exact h.fresh t k hk
  · intro t' ht k hk
    have hkid : k ≠ id := by
      rintro rfl
      exact hk (hnone t')
    rw [hw k hkid, Function.update_of_ne hkid]
    exact ⟨(h.fresh t' k hk).2, h.none_of_ne ht hk⟩
  · intro k hk hrest
    have hkid : k ≠ id := by
      rintro rfl
      rw [Function.update_self] at hk
      cases hk
    rw [Function.update_of_ne hkid] at hk
    rw [hw k hkid]
    exact h.same_of_rest hk hrest

/-- The body ends with the new content of its inode, and everything that it has made is there with it. -/
theorem Link.put_inside (h : Link c s us) {op : Op} {buf : Str} {out : Out}
    (hrun : s.run t = some (op, none)) (hl : c.world.lock op.ino = some t) (hlive : s.files op.ino ≠ none)
    (hfiles : w'.files = c.world.files.put op.ino buf) (hlock : w'.lock = c.world.lock)
    (hexec : op.body.Exec Files.serve s.files out ((joined s.files (us t)).put op.ino buf)) :
    Matches s ⟨w', Function.update c.run t (some (op, op.fin out)), c.known⟩ := by
  have hw : ∀ k, k ≠ op.ino → w'.files k = c.world.files k := by
    intro k hk
    rw [hfiles, Files.put, Function.update_of_ne hk]
  have hg : ∀ k, k ≠ op.ino → (joined s.files (us t)).put op.ino buf k = joined s.files (us t) k :=
    fun k hk => Function.update_of_ne hk _ _
  have hold : ∀ k, s.files k ≠ none → joined s.files (us t) k = s.files k := by
    intro k hk
    refine joined_of_none ?_
    by_contra hmine
    exact hk (h.fresh t k hmine).1
  refine h.commit hrun hexec (at_fin (hlock ▸ hl) (new_live hexec)) ?_ ?_ ?_ ?_
  · intro k hk
    refine ⟨live_put _ _ (by rwa [hold k hk]), ?_⟩
    by_cases hkid : k = op.ino
    · rw [hkid, Files.put, Function.update_self, hold _ hlive]
      cases s.files op.ino <;> rfl
    · rw [hg k hkid, hold k hk]
  · intro t' ht lid hheld
    refine ⟨hlock ▸ hheld, fun _ => hw lid ?_⟩
    rintro rfl
    exact ht (Option.some.inj (hl.symm.trans hheld)).symm
  · intro t' ht k hk
    have hkid : k ≠ op.ino := by
      rintro rfl
      exact hlive (h.fresh t' _ hk).1
    rw [hg k hkid, joined_of_none (h.none_of_ne ht hk), hw k hkid]
    exact h.fresh t' k hk
  · intro k hrest
    by_cases hkid : k = op.ino
    · rw [hkid, hfiles, Files.put, Function.update_self, Files.put, Function.update_self, hold _ hlive,
        h.same_of_live hlive]
    · rw [hg k hkid, hw k hkid]
      by_cases hmine : us t k = none
      · rw [joined_of_none hmine]
        exact h.same_of_rest hmine hrest
      · rw [joined_of_ne_none hmine]
        exact (h.fresh t k hmine).2

theorem Link.call_inside (h : Link c s us) {op : Op} {k : Call} {next : Reply k → M Out} {r : Reply k}
    (hrun : s.run t = some (op, none)) (hl : c.world.lock op.ino = some t) (hlive : s.files op.ino ≠ none)
    (hq : Quiet op.ino (c.world.files op.ino) (.call k next))
    (hin : Inside op (.call k next) (c.world.files op.ino) (us t)) (hserve : World.serve t k c.world r w') :
    Matches s ⟨w', Function.update c.run t (some (op, (next r).bind op.fin)), c.known⟩ := by
  have hv : c.world.files op.ino ≠ none := by
    rwa [h.same_of_live hlive]
  cases k with
  | get id =>
    obtain ⟨rfl, hq'⟩ := hq
    obtain ⟨⟨rfl, hfiles⟩, hlock⟩ := hserve
    obtain rfl := world_ext hfiles hlock
    exact h.read_inside hrun hl hlive hq' (hin.get hv)
  | getattr id =>
    obtain ⟨rfl, hq'⟩ := hq
    obtain ⟨⟨hok, htype, hsize, hfiles⟩, hlock⟩ := hserve
    obtain ⟨status, attr⟩ := r
    obtain rfl : status = .ok := hok
    obtain rfl := world_ext hfiles hlock
    exact h.read_inside hrun hl hlive (hq' attr htype hsize) (hin.getattr hv htype hsize)
  | create type =>
    obtain ⟨status, id⟩ := r
    obtain ⟨⟨hok, hnew, hfiles⟩, hlock⟩ := hserve
    obtain rfl : status = .ok := hok
    exact h.create_inside hrun hl hlive hnew hfiles hlock (hq id) fun hnone => hin.create hnone
  | put id buf =>
    obtain ⟨rfl, out, hout⟩ := hq
    obtain ⟨⟨rfl, hfiles⟩, hlock⟩ := hserve
    have hexec : op.body.Exec Files.serve s.files out ((joined s.files (us t)).put op.ino buf) := by
      refine hin s.files (h.same_of_live hlive).symm (fun k hk => (h.fresh t k hk).1) out _
        ⟨.ok, _, ⟨rfl, rfl⟩, ?_⟩
      rw [hout]
      exact ⟨rfl, rfl⟩
    rw [hout]
    exact h.put_inside hrun hl hlive hfiles hlock hexec
  | _ => exact hq.elim

theorem Link.commit_same (h : Link c s us) {op : Op} {out : Out} (hrun : s.run t = some (op, none))
    (hu : ∀ k, us t k = none) (hexec : op.body.Exec Files.serve s.files out s.files) :
    Matches s ⟨c.world, Function.update c.run t (some (op, .pure out)), c.known⟩ := by
  refine h.commit hrun hexec (.done (fun _ => rfl) (new_live hexec)) (keeps_refl _)
    (fun t' _ lid hheld => ⟨hheld, fun _ => rfl⟩) (fun t' _ k hk => h.fresh t' k hk) fun k hrest => ?_
  refine h.same k fun t' => ?_
  by_cases ht : t' = t
  · rw [ht, hu]
  · exact hrest t' ht

theorem Link.call_lookup (h : Link c s us) {parent out : UInt64} {name : Str} {attr : Attr}
    (hrun : s.run t = some (.lookup parent name out, none)) (hu : ∀ k, us t k = none)
    (hlive : s.files parent ≠ none) (htype : attr.type = typeOf (c.world.files parent))
    (hsize : attr.size = UInt32.ofNat (text (c.world.files parent)).length) :
    Matches s ⟨c.world, Function.update c.run t (some (.lookup parent name out,
      if (decide (Status.ok = .ok) && decide (attr.type = FileType.dir.code)) = true
        then lookRest parent name out else .pure (.found (.ok, false, out)))), c.known⟩ := by
  rw [h.same_of_live hlive] at htype hsize
  by_cases hdir : attr.type = FileType.dir.code
  · have hat : At c.world s.files (us t) t (some (.lookup parent name out, lookRest parent name out))
        (some (.lookup parent name out, none)) := .looking hu hlive (htype.symm.trans hdir)
    have hlink := h.move_same hat rfl (fun t' _ lid hheld => hheld) h.known
    rw [← hrun, Function.update_eq_self] at hlink
    refine ⟨s, .inr rfl, us, ?_⟩
    rw [decide_eq_true hdir, decide_eq_true rfl, Bool.and_true, if_pos rfl]
    exact hlink
  · rw [decide_eq_false hdir, Bool.and_false, if_neg Bool.false_ne_true]
    refine h.commit_same hrun hu ?_
    rw [lookup_body_eq]
    refine ⟨(.ok, attr), s.files, ⟨rfl, htype, hsize, rfl⟩, ?_⟩
    dsimp only
    rw [decide_eq_false hdir, Bool.and_false, if_neg Bool.false_ne_true]
    exact ⟨rfl, rfl⟩

private theorem exec_lookup {parent out : UInt64} {name : Str} {a : Out}
    (hdir : typeOf (g parent) = FileType.dir.code)
    (hrest : (lookRest parent name out).Exec Files.serve g a g) :
    (Op.lookup parent name out).body.Exec Files.serve g a g := by
  rw [lookup_body_eq]
  refine ⟨(.ok, ⟨typeOf (g parent), 0, 0, 0, UInt32.ofNat (text (g parent)).length⟩), g,
    ⟨rfl, rfl, rfl, rfl⟩, ?_⟩
  dsimp only
  rw [decide_eq_true hdir, decide_eq_true rfl, Bool.and_true, if_pos rfl]
  exact hrest

theorem Link.relock (h : Link c s us) {op : Op} {lock' : UInt64 → Option T} {p : M Out} (hb : s.run t = b)
    (hat : At ⟨c.world.files, lock'⟩ s.files (us t) t (some (op, p)) b)
    (hlock : ∀ t', t' ≠ t → ∀ lid, c.world.lock lid = some t' → lock' lid = some t') :
    Matches s ⟨⟨c.world.files, lock'⟩, Function.update c.run t (some (op, p)), c.known⟩ := by
  have hlink := h.move_same hat rfl hlock h.known
  rw [← hb, Function.update_eq_self] at hlink
  exact ⟨s, .inr rfl, us, hlink⟩

theorem Link.call (h : Link c s us) {op : Op} {k : Call} {next : Reply k → M Out} {r : Reply k}
    (hrun : c.run t = some (op, .call k next)) (hserve : World.serve t k c.world r w') :
    Matches s ⟨w', Function.update c.run t (some (op, next r)), c.known⟩ := by
  have hat := h.thread t
  rw [hrun] at hat
  generalize hx : some (op, Prog.call k next) = x at hat
  generalize hy : s.run t = y at hat
  cases hat with
  | idle => cases hx
  | @waiting op' hu hlive hfits =>
    obtain ⟨rfl, hcall⟩ := Prod.mk.inj (Option.some.inj hx)
    have hfits' : op.Fits c.world.files := by
      cases op with
      | readdir ino => exact (congrArg typeOf (h.same_of_live hlive)).trans hfits
      | _ => trivial
    by_cases hlocks : op.Locks
    · rw [Op.call_eq hlocks] at hcall
      cases hcall
      obtain ⟨hfree, rfl⟩ := hserve
      have hin : Inside op op.body (c.world.files op.ino) (us t) := by
        rw [funext hu]
        exact inside_body op _
      refine h.relock hy
        (.inside (Function.update_self _ _ _) hlive (quiet_body hfits') (body_ne_pure op) hin) ?_
      intro t' ht lid hheld
      rw [Function.update_of_ne fun heq => ?_]
      · exact hheld
      · rw [heq, hfree] at hheld
        cases hheld
    · cases op with
      | lookup parent name out =>
        change Prog.call k next = (Op.lookup parent name out).body at hcall
        rw [lookup_body_eq] at hcall
        cases hcall
        obtain ⟨status, attr⟩ := r
        obtain ⟨⟨hok, htype, hsize, hfiles⟩, hlock⟩ := hserve
        obtain rfl : status = .ok := hok
        rw [world_ext hfiles hlock]
        exact h.call_lookup hy hu hlive htype hsize
      | _ => exact absurd trivial hlocks
  | @inside op' q hl hlive hq hcall hin =>
    obtain ⟨rfl, heq⟩ := Prod.mk.inj (Option.some.inj hx)
    cases q with
    | pure a => exact absurd rfl (hcall a)
    | call k' next' =>
      cases heq
      exact h.call_inside hy hl hlive hq hin hserve
  | @looking parent out name hu hlive hdir =>
    obtain ⟨rfl, heq⟩ := Prod.mk.inj (Option.some.inj hx)
    cases heq
    obtain ⟨⟨rfl, hfiles⟩, hlock⟩ := hserve
    rw [world_ext hfiles hlock, h.same_of_live hlive]
    exact h.commit_same hy hu (exec_lookup hdir ⟨_, s.files, ⟨rfl, rfl⟩, ⟨rfl, rfl⟩⟩)
  | @closing op' out hu hl hnew =>
    obtain ⟨rfl, heq⟩ := Prod.mk.inj (Option.some.inj hx)
    cases heq
    obtain ⟨-, rfl⟩ := hserve
    refine h.relock hy (.done hu hnew) ?_
    intro t' ht lid hheld
    rw [Function.update_of_ne fun heq => ?_]
    · exact hheld
    · rw [heq, hl] at hheld
      exact ht (Option.some.inj hheld).symm
  | done => cases hx

end

end Yfs.Client.Atomic
