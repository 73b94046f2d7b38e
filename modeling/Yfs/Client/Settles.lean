import Yfs.Client.Observe

/-! Operations of one client while nobody else acts: each of their calls is answered, so they come to their
end, and they give back the locks that they take. -/
namespace Yfs.Client
open Yfs.Lib Yfs.Extent

/-- Whatever the server answers, the program of `t` comes to its end. Then the locks are as they were, and
`Q` holds of the result and of the files. -/
def Runs {T α : Type} (t : T) (Q : α → Files → Prop) (p : M α) (w : World T) : Prop :=
  p.Wp (Prog.Answered (World.serve t)) (World.serve t) (fun a w' => Q a w'.files ∧ w'.lock = w.lock) w

def Ready : Call → Files → Prop
  | .create _, files => ∃ id, files id = none
  | .get _, _ | .getattr _, _ | .put _ _, _ | .remove _, _ => True
  | _, _ => False

def Steady : Call → Prop
  | .get _ | .getattr _ | .put _ _ | .remove _ => True
  | _ => False

section
variable {T α β : Type} {t : T} {w w' : World T} {Q Q' : α → Files → Prop} {S : β → Files → Prop} {p : M α}
  {id : UInt64}

theorem runs_pure {a : α} (h : Q a w.files) : Runs t Q (pure a) w := Prog.wp_pure ⟨h, rfl⟩

theorem Runs.mono (h : Runs t Q p w) (hQ : ∀ a files, Q a files → Q' a files) : Runs t Q' p w :=
  Prog.Wp.mono h fun a w' hw => ⟨hQ a w'.files hw.1, hw.2⟩

theorem Runs.bind {f : α → M β} (hp : Runs t Q p w)
    (hf : ∀ a files, Q a files → Runs t S (f a) ⟨files, w.lock⟩) : Runs t S (p >>= f) w := by
  refine Prog.Wp.bind hp fun a w' hw => ?_
  obtain ⟨hQ, hlock⟩ := hw
  have hrun := hf a w'.files hQ
  rw [← hlock] at hrun
  exact Prog.Wp.mono hrun fun b w'' hw'' => ⟨hw''.1, hw''.2.trans hlock⟩

theorem Runs.bind_at {K : α → Prop} {files' : α → Files} {f : α → M β}
    (hp : Runs t (fun a files => K a ∧ files = files' a) p w)
    (hf : ∀ a, K a → Runs t S (f a) ⟨files' a, w.lock⟩) : Runs t S (p >>= f) w := by
  refine hp.bind ?_
  rintro a _ ⟨ha, rfl⟩
  exact hf a ha

theorem Runs.bind_returns {a : α} {files' : Files} {f : α → M β}
    (hp : Runs t (fun r files => r = a ∧ files = files') p w) (hf : Runs t S (f a) ⟨files', w.lock⟩) :
    Runs t S (p >>= f) w := by
  refine hp.bind_at ?_
  rintro _ rfl
  exact hf

theorem Runs.map {g : α → β} (h : Runs t (fun a files => S (g a) files) p w) : Runs t S (g <$> p) w := by
  rw [map_eq_pure_bind]
  exact h.bind fun a files hS => runs_pure hS

theorem Runs.exists_exec (h : Runs t Q p w) :
    ∃ a files, p.Exec (World.serve t) w a ⟨files, w.lock⟩ ∧ Q a files := by
  obtain ⟨a, w', hexec, hQ, hlock⟩ := Prog.Wp.exists_exec h
  refine ⟨a, w'.files, ?_, hQ⟩
  rw [← hlock]
  exact hexec

theorem Runs.result (h : Runs t Q p w) {a : α} (hexec : p.Exec (World.serve t) w a w') :
    Q a w'.files ∧ w'.lock = w.lock := by
  refine Prog.Wp.result (fun s : World T => s) ?_ h hexec
  intro c s r s' hserve
  exact hserve

theorem answered_of_ready {c : Call} (h : Ready c w.files) : Prog.Answered (World.serve t) c w := by
  cases c with
  | create type =>
    obtain ⟨id, hid⟩ := h
    exact ⟨(.ok, id), ⟨_, w.lock⟩, ⟨rfl, hid, rfl⟩, rfl⟩
  | get id => exact ⟨_, w, ⟨rfl, rfl⟩, rfl⟩
  | getattr id => exact ⟨(.ok, ⟨_, 0, 0, 0, _⟩), w, ⟨rfl, rfl, rfl, rfl⟩, rfl⟩
  | put id buf => exact ⟨_, ⟨_, w.lock⟩, ⟨rfl, rfl⟩, rfl⟩
  | remove id => exact ⟨_, ⟨_, w.lock⟩, ⟨rfl, rfl⟩, rfl⟩
  | _ => exact h.elim

theorem lock_of_ready {c : Call} {r : Reply c} (h : Ready c w.files) (hserve : World.serve t c w r w') :
    w'.lock = w.lock := by
  cases c with
  | acquire lid => exact h.elim
  | release lid => exact h.elim
  | _ => exact hserve.2

theorem Leads.runs (h : Leads Q p w.files) (hready : p.Wp Ready Files.act (fun _ _ => True) w.files) :
    Runs t Q p w := by
  induction p generalizing w with
  | pure a => exact ⟨h, rfl⟩
  | call c next ih =>
    refine ⟨answered_of_ready hready.1, fun r w' hserve => ?_⟩
    have hact := Files.act_of_serve c w r w' hserve
    have hrun := ih r (w := w') (h.2 r _ hact) (hready.2 r _ hact)
    have hlock := lock_of_ready hready.1 hserve
    exact Prog.Wp.mono hrun fun a w'' hw'' => ⟨hw''.1, hw''.2.trans hlock⟩

private theorem ready_of_steady (hp : p.All Steady) (files : Files) :
    p.Wp Ready Files.act (fun _ _ => True) files := by
  refine Prog.wp_of_all hp (fun c hc files => ?_) files
  cases c <;> first | exact hc.elim | trivial

theorem Leads.runs_steady (h : Leads Q p w.files) (hp : p.All Steady) : Runs t Q p w :=
  h.runs (ready_of_steady hp w.files)

theorem runs_acquire (hfree : w.lock id = none) : Prog.Wp (Prog.Answered (World.serve t)) (World.serve t)
    (fun _ w' => w' = ⟨w.files, Function.update w.lock id (some t)⟩) (perform (.acquire id)) w :=
  Prog.wp_perform ⟨(), _, hfree, rfl⟩ fun _ _ h => h.2

theorem runs_release (hheld : w.lock id = some t) : Prog.Wp (Prog.Answered (World.serve t)) (World.serve t)
    (fun _ w' => w' = ⟨w.files, Function.update w.lock id none⟩) (perform (.release id)) w :=
  Prog.wp_perform ⟨(), _, hheld, rfl⟩ fun _ _ h => h.2

theorem Runs.locked (hfree : w.lock id = none)
    (h : Runs t Q p ⟨w.files, Function.update w.lock id (some t)⟩) : Runs t Q (locked id p) w := by
  refine (runs_acquire hfree).bind_state fun _ => ?_
  refine Prog.Wp.bind h fun a w₁ hw₁ => ?_
  obtain ⟨hQ, hlock⟩ := hw₁
  have hheld : w₁.lock id = some t := by
    rw [hlock]
    exact Function.update_self _ _ _
  refine (runs_release hheld).bind_state fun _ => ?_
  refine Prog.wp_pure ⟨hQ, ?_⟩
  rw [hlock]
  exact update_back hfree t

theorem Runs.guarded {p : M (Option α)} {Q : Option α → Files → Prop} (hfree : w.lock id = none)
    (h : Runs t (fun a files => a ≠ none ∧ Q a files) p ⟨w.files, Function.update w.lock id (some t)⟩) :
    Runs t Q (guarded id p) w := by
  refine (runs_acquire hfree).bind_state fun _ => ?_
  refine Prog.Wp.bind h fun a w₁ hw₁ => ?_
  obtain ⟨⟨hne, hQ⟩, hlock⟩ := hw₁
  have hheld : w₁.lock id = some t := by
    rw [hlock]
    exact Function.update_self _ _ _
  cases a with
  | none => exact absurd rfl hne
  | some b =>
    refine (runs_release hheld).bind_state fun _ => ?_
    refine Prog.wp_pure ⟨hQ, ?_⟩
    rw [hlock]
    exact update_back hfree t

end

section
variable {T : Type} {t : T} {w : World T} {files : Files} {parent ino : UInt64} {name : Str}

private theorem all_steady_nlockLookup (parent : UInt64) (name : Str) (found : Bool) (out : UInt64) :
    (nlockLookup parent name found out).All Steady :=
  all_nlockLookup (K := Steady) trivial trivial name found out

theorem runs_nlockLookup (t : T) (w : World T) (parent : UInt64) (name : Str) (out : UInt64) :
    Runs t (fun r files => r = w.files.lookup parent name out ∧ files = w.files)
      (nlockLookup parent name false out) w :=
  (leads_nlockLookup w.files parent name out).runs_steady (all_steady_nlockLookup parent name false out)

theorem runs_get (t : T) (w : World T) (id : UInt64) :
    Runs t (fun r files => r = (.ok, text (w.files id)) ∧ files = w.files) (perform (.get id)) w :=
  (leads_get w.files id).runs_steady (Prog.all_perform.2 trivial)

theorem runs_put (t : T) (w : World T) (id : UInt64) (buf : Str) :
    Runs t (fun _ files => files = w.files.put id buf) (perform (.put id buf)) w :=
  (leads_put w.files id buf).runs_steady (Prog.all_perform.2 trivial)

theorem runs_create (t : T) (w : World T) (type : FileType) (hfree : ∃ id, w.files id = none) :
    Runs t (fun r files => w.files r.2 = none ∧ files = w.files.grow r.2 type)
      (perform (.create type.code)) w :=
  (leads_create w.files type).runs ⟨hfree, fun _ _ _ => trivial⟩

private theorem runs_getattr (t : T) (w : World T) (id : UInt64) :
    Runs t (fun r files => (∃ a : Attr, r = (.ok, a) ∧ a.type = typeOf (w.files id) ∧
      a.size = UInt32.ofNat (text (w.files id)).length) ∧ files = w.files) (perform (.getattr id)) w := by
  refine Prog.wp_perform (answered_of_ready trivial) fun r w' h => ?_
  obtain ⟨⟨hok, htype, hsize, hfiles⟩, hlock⟩ := h
  exact ⟨⟨⟨r.2, Prod.ext hok rfl, htype, hsize⟩, hfiles⟩, hlock⟩

theorem runs_is (hfree : w.lock ino = none) (t : T) (type : FileType) :
    Runs t (fun b files => b = decide (typeOf (w.files ino) = type.code) ∧ files = w.files)
      (locked ino (nlockIs type ino)) w := by
  refine Runs.locked hfree (Leads.runs_steady (leads_nlockIs w.files type ino) ?_)
  exact Prog.all_bind (Prog.all_perform.2 trivial) fun _ => trivial

theorem runs_getInfo {α : Type} (hfree : w.lock ino = none) (t : T) (info : Attr → α) :
    Runs t (fun r files => (∃ a : Attr, r = (.ok, some (info a)) ∧ a.type = typeOf (w.files ino) ∧
      a.size = UInt32.ofNat (text (w.files ino)).length) ∧ files = w.files) (getInfo info ino) w := by
  refine Runs.locked hfree ((runs_getattr t _ ino).bind ?_)
  rintro r files ⟨⟨a, rfl, htype, hsize⟩, hfiles⟩
  exact runs_pure ⟨⟨a, rfl, htype, hsize⟩, hfiles⟩

theorem runs_readdir {dirList : Str} (hdir : w.files.dir ino = some dirList) (hfree : w.lock ino = none)
    (t : T) :
    Runs t (fun r files => r = (.ok, (entries dirList).map fun e => ⟨e.1, n2i e.2⟩) ∧ files = w.files)
      (readdir ino) w := by
  have htype : typeOf (w.files ino) = FileType.dir.code := by
    rw [Files.dir_eq_some.1 hdir]
    rfl
  have hisdir : ∀ lock, Runs t (fun b files => b = true ∧ files = w.files) (nlockIsdir ino)
      ⟨w.files, lock⟩ := by
    intro lock
    refine Leads.runs_steady ?_ (Prog.all_bind (Prog.all_perform.2 trivial) fun _ => trivial)
    refine (leads_nlockIs w.files .dir ino).mono ?_
    rintro b files ⟨rfl, rfl⟩
    exact ⟨decide_eq_true htype, rfl⟩
  refine Runs.locked hfree ((hisdir _).bind_returns ((runs_get t _ ino).bind_returns ?_))
  rw [Files.dir_eq_text hdir]
  exact runs_pure ⟨rfl, rfl⟩

theorem runs_setattr (hfree : w.lock ino = none) (t : T) (size : ℕ) :
    Runs t (fun r files => r = .ok ∧ files = w.files.put ino (resize (text (w.files ino)) size))
      (setattr ino size) w := by
  refine Runs.locked hfree ((runs_get t _ ino).bind_returns ?_)
  refine (runs_put t _ ino _).bind ?_
  rintro _ files rfl
  exact runs_pure ⟨rfl, rfl⟩

theorem runs_write (hfree : w.lock ino = none) (t : T) (off : ℕ) (data : Str) :
    Runs t (fun r files => r = (.ok, (off - (text (w.files ino)).length) + data.length) ∧
      files = w.files.put ino (writeAt (text (w.files ino)) off data)) (write ino off data) w := by
  refine Runs.locked hfree ((runs_get t _ ino).bind_returns ?_)
  refine (runs_put t _ ino _).bind ?_
  rintro _ files rfl
  refine runs_pure ⟨?_, rfl⟩
  split_ifs with hgap
  · rfl
  · rw [Nat.sub_eq_zero_of_le (Nat.not_lt.1 hgap)]

theorem runs_read {size : UInt64} {off : Int64} {data : Str} (hfree : w.lock ino = none)
    (hread : readAt (text (w.files ino)) size off = some data) (t : T) :
    Runs t (fun r files => r = some (.ok, data) ∧ files = w.files) (read ino size off) w := by
  refine Runs.guarded hfree ((runs_get t _ ino).bind_returns ?_)
  dsimp only
  rw [if_pos rfl, hread]
  exact runs_pure ⟨Option.some_ne_none _, rfl, rfl⟩

theorem runs_readlink (hfree : w.lock ino = none) (t : T) :
    Runs t (fun r files => r = (.ok, text (w.files ino)) ∧ files = w.files) (readlink ino) w := by
  refine Runs.locked hfree ((runs_get t _ ino).bind_returns ?_)
  exact runs_pure ⟨rfl, rfl⟩

theorem runs_add (hlock : w.lock parent = none) (hfree : ∃ id, w.files id = none) (t : T) (type : FileType)
    (name : Str) (out : UInt64) :
    Runs t (Added w.files type parent name) (locked parent (nlockAdd type parent name out)) w := by
  refine Runs.locked hlock ((runs_nlockLookup t _ parent name out).bind_returns ?_)
  unfold Files.lookup
  cases hentry : w.files.entry? parent name with
  | some e => exact runs_pure (.inl ⟨e, hentry, rfl, rfl⟩)
  | none =>
    refine (runs_create t ⟨w.files, Function.update w.lock parent (some t)⟩ type hfree).bind_at ?_
    intro r hnew
    refine (runs_get t _ parent).bind_returns ((runs_put t _ parent _).bind ?_)
    rintro _ files rfl
    exact runs_pure (.inr ⟨hentry, hnew, rfl, rfl⟩)

theorem runs_createlink (hlock : w.lock parent = none) (hfree : ∃ id, w.files id = none) (t : T)
    (linkName targetName : Str) (out : UInt64) :
    Runs t (Linked w.files parent linkName targetName) (createlink parent linkName targetName out) w := by
  refine Runs.locked hlock ((runs_nlockLookup t _ parent _ out).bind_returns ?_)
  unfold Files.lookup
  cases hentry : w.files.entry? parent (cStr linkName) with
  | some e => exact runs_pure (.inl ⟨e, hentry, rfl, rfl⟩)
  | none =>
    refine (runs_create t ⟨w.files, Function.update w.lock parent (some t)⟩ .symlink hfree).bind_at ?_
    intro r hnew
    refine (runs_get t _ parent).bind_returns ((runs_put t _ parent _).bind ?_)
    rintro _ files rfl
    refine (runs_put t _ r.2 targetName).bind ?_
    rintro _ files rfl
    exact runs_pure (.inr ⟨hentry, hnew, rfl, rfl⟩)

theorem runs_unlink_none (hlock : w.lock parent = none) (hentry : w.files.entry? parent name = none) (t : T) :
    Runs t (fun r files => r = some .noent ∧ files = w.files) (unlink parent name) w := by
  refine Runs.guarded hlock ((runs_nlockLookup t _ parent name 0).bind_returns ?_)
  dsimp only
  rw [Files.lookup, hentry]
  exact runs_pure ⟨Option.some_ne_none _, rfl, rfl⟩

theorem runs_unlink_some {e : Str × Str} {dirList : Str} (hlock : ∀ id, w.lock id = none)
    (hentry : w.files.entry? parent name = some e) (hne : n2i e.2 ≠ parent)
    (hcut : unlinkText (text (w.files parent)) name (n2i e.2) = some dirList) (t : T) :
    Runs t (fun r files => r = some .ok ∧ files = (w.files.put parent dirList).drop (n2i e.2))
      (unlink parent name) w := by
  refine Runs.guarded (hlock parent) ((runs_nlockLookup t _ parent name 0).bind_returns ?_)
  dsimp only
  rw [Files.lookup, hentry]
  refine (runs_get t _ parent).bind_returns ?_
  dsimp only
  rw [if_pos rfl, hcut]
  refine (runs_put t _ parent dirList).bind ?_
  rintro _ files rfl
  refine Runs.bind (Q := fun _ files => files = (w.files.put parent dirList).drop (n2i e.2)) ?_ ?_
  · refine Runs.locked ?_ ?_
    · exact (Function.update_of_ne hne _ _).trans (hlock _)
    · refine Leads.runs_steady ?_ (Prog.all_bind (Prog.all_perform.2 trivial) fun _ => trivial)
      refine (leads_remove _ (n2i e.2)).bind ?_
      rintro _ files rfl
      exact Prog.wp_pure rfl
  · rintro _ files rfl
    exact runs_pure ⟨Option.some_ne_none _, rfl, rfl⟩

end
end Yfs.Client
