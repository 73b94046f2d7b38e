import Yfs.Client.Effects

/-! What `lookup` and `readdir` show of a world in which nobody else acts. -/
namespace Yfs.Client
open Yfs.Lib Yfs.Extent

section
variable {T α : Type} {t : T} {w w' : World T}

/-- The program can run; it returns `a` and leaves the world as it is. -/
def Shows (t : T) (p : M α) (w : World T) (a : α) : Prop :=
  ∀ r w', p.Exec (World.serve t) w r w' ↔ r = a ∧ w' = w

theorem Shows.unique {p : M α} {a b : α} (h : Shows t p w a) (h' : Shows t p w b) : a = b :=
  ((h' a w).1 ((h a w).2 ⟨rfl, rfl⟩)).1

theorem shows_pure (t : T) (w : World T) (a : α) : Shows t (pure a : M α) w a := fun _ _ => Prog.exec_pure

theorem Shows.bind {β : Type} {p : M α} {f : α → M β} {a : α} {b : β} (hp : Shows t p w a)
    (hf : Shows t (f a) w b) : Shows t (p >>= f) w b := by
  intro r w'
  rw [Prog.exec_bind_of_iff hp]
  exact hf r w'

theorem shows_get (t : T) (w : World T) (id : UInt64) :
    Shows t (perform (.get id)) w (.ok, text (w.files id)) := fun _ _ => exec_get

theorem shows_nlockIs (t : T) (w : World T) (type : FileType) (inum : UInt64) :
    Shows t (nlockIs type inum) w (decide (typeOf (w.files inum) = type.code)) := by
  intro b w'
  unfold nlockIs
  rw [Prog.exec_bind]
  constructor
  · rintro ⟨⟨r, a⟩, w₁, hcall, hb⟩
    obtain ⟨⟨hok, htype, -, hfiles⟩, hlock⟩ := Prog.exec_perform.1 hcall
    obtain ⟨rfl, rfl⟩ := Prog.exec_pure.1 hb
    dsimp only at hok htype
    rw [hok, htype]
    cases w
    cases w'
    simp_all
  · rintro ⟨rfl, rfl⟩
    refine ⟨(.ok, ⟨typeOf (w'.files inum), 0, 0, 0, UInt32.ofNat (text (w'.files inum)).length⟩), w', ?_, ?_⟩
    · exact Prog.exec_perform.2 ⟨⟨rfl, rfl, rfl, rfl⟩, rfl⟩
    · exact Prog.exec_pure.2 ⟨by simp, rfl⟩

theorem shows_nlockIsdir (t : T) (w : World T) (inum : UInt64) :
    Shows t (nlockIsdir inum) w (w.files.dir inum).isSome := by
  have hdir : (w.files.dir inum).isSome = decide (typeOf (w.files inum) = FileType.dir.code) := by
    unfold Files.dir
    split_ifs with h <;> simp [h]
  rw [hdir]
  exact shows_nlockIs t w .dir inum

theorem shows_lookup (t : T) (w : World T) (parent : UInt64) (name : Str) (found : Bool) (out : UInt64) :
    Shows t (lookup parent name found out) w (w.files.lookup parent name out) := by
  apply (shows_nlockIsdir t w parent).bind
  unfold Files.lookup Files.entry?
  cases hdir : w.files.dir parent with
  | none => exact shows_pure t w _
  | some dirList =>
    apply (shows_get t w parent).bind
    dsimp only [Option.bind_some]
    rw [Files.dir_eq_text hdir, if_pos rfl]
    cases findEntry dirList name with
    | none => exact shows_pure t w _
    | some e => exact shows_pure t w _

theorem shows_nlockReaddir {dir : UInt64} {dirList : Str} (hdir : w.files.dir dir = some dirList) (t : T) :
    Shows t (nlockReaddir dir) w (.ok, (entries dirList).map fun e => ⟨e.1, n2i e.2⟩) := by
  apply (shows_nlockIsdir t w dir).bind
  rw [hdir]
  apply (shows_get t w dir).bind
  rw [Files.dir_eq_text hdir]
  exact shows_pure t w _

theorem gives_acquire {lid : UInt64} (h : w.lock lid = none) :
    (perform (.acquire lid)).Gives (World.serve t) w ()
      { w with lock := Function.update w.lock lid (some t) } := by
  intro r w'
  rw [Prog.exec_perform]
  exact ⟨fun hact => ⟨rfl, hact.2⟩, fun heq => ⟨h, heq.2⟩⟩

theorem gives_release {lid : UInt64} (h : w.lock lid = some t) :
    (perform (.release lid)).Gives (World.serve t) w ()
      { w with lock := Function.update w.lock lid none } := by
  intro r w'
  rw [Prog.exec_perform]
  exact ⟨fun hact => ⟨rfl, hact.2⟩, fun heq => ⟨h, heq.2⟩⟩

theorem update_back {lock : UInt64 → Option T} {id : UInt64} (h : lock id = none) (t : T) :
    Function.update (Function.update lock id (some t)) id none = lock := by
  rw [Function.update_idem, ← h, Function.update_eq_self]

theorem exec_locked_of_iff {p : M α} {a : α} {files : Files} {id : UInt64} (hfree : w.lock id = none)
    (hp : ∀ r w', p.Exec (World.serve t) ⟨w.files, Function.update w.lock id (some t)⟩ r w' ↔
      r = a ∧ w' = ⟨files, Function.update w.lock id (some t)⟩) {r : α} :
    (locked id p).Exec (World.serve t) w r w' ↔ r = a ∧ w' = ⟨files, w.lock⟩ := by
  rw [exec_locked, and_iff_right hfree]
  constructor
  · rintro ⟨w₁, hexec, -, rfl⟩
    obtain ⟨rfl, rfl⟩ := (hp r w₁).1 hexec
    exact ⟨rfl, by rw [update_back hfree]⟩
  · rintro ⟨rfl, rfl⟩
    exact ⟨_, (hp r _).2 ⟨rfl, rfl⟩, Function.update_self _ _ _, by rw [update_back hfree]⟩

theorem shows_readdir {dir : UInt64} {dirList : Str} (hdir : w.files.dir dir = some dirList) (t : T)
    (hfree : w.lock dir = none) :
    Shows t (readdir dir) w (.ok, (entries dirList).map fun e => ⟨e.1, n2i e.2⟩) := by
  intro r w'
  apply exec_locked_of_iff hfree
  apply shows_nlockReaddir
  exact hdir

end
end Yfs.Client
