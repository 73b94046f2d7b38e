import Yfs.Lib.Prog
import Mathlib.Logic.Function.Basic
import Mathlib.Logic.Relation
import Mathlib.Data.DFinsupp.WellFounded
import Mathlib.Data.List.Nodup

/-! Threads that run programs against a shared server, one call at a time in any order. Programs
that keep to a lock for all they do are serializable: for each lock the run amounts to the bodies
of the sections executed one after the other. -/
namespace Yfs.Lib
namespace Prog
variable {C : Type} {R : C → Type} {α β σ : Type}

/-- The program runs from `s` to `s'` and ends with `a`, the server acting by `act`. -/
def Exec (act : (c : C) → σ → R c → σ → Prop) : Prog C R α → σ → α → σ → Prop
  | .pure a, s, a', s' => a' = a ∧ s' = s
  | .call c next, s, a, s'' => ∃ r s', act c s r s' ∧ (next r).Exec act s' a s''

def All (P : C → Prop) : Prog C R α → Prop
  | .pure _ => True
  | .call c next => P c ∧ ∀ r, (next r).All P

variable {act : (c : C) → σ → R c → σ → Prop} {P : C → Prop}

@[simp] theorem exec_pure {a a' : α} {s s' : σ} :
    Exec act (Pure.pure a : Prog C R α) s a' s' ↔ a' = a ∧ s' = s := Iff.rfl

theorem exec_bind {p : Prog C R α} {f : α → Prog C R β} {s s'' : σ} {b : β} :
    Exec act (p >>= f) s b s'' ↔ ∃ a s', Exec act p s a s' ∧ Exec act (f a) s' b s'' := by
  change Exec act (p.bind f) s b s'' ↔ _
  induction p generalizing s with
  | pure a =>
    constructor
    · intro h
      exact ⟨a, s, ⟨rfl, rfl⟩, h⟩
    · rintro ⟨a', s', ⟨rfl, rfl⟩, h⟩
      exact h
  | call c next ih =>
    constructor
    · rintro ⟨r, s', hact, h⟩
      obtain ⟨a, s₁, hfirst, hrest⟩ := (ih r).1 h
      exact ⟨a, s₁, ⟨r, s', hact, hfirst⟩, hrest⟩
    · rintro ⟨a, s₁, ⟨r, s', hact, hfirst⟩, hrest⟩
      exact ⟨r, s', hact, (ih r).2 ⟨a, s₁, hfirst, hrest⟩⟩

@[simp] theorem exec_perform {c : C} {r : R c} {s s' : σ} :
    Exec act (perform c : Prog C R (R c)) s r s' ↔ act c s r s' := by
  constructor
  · rintro ⟨r', s₁, hact, rfl, rfl⟩
    exact hact
  · intro hact
    exact ⟨r, s', hact, rfl, rfl⟩

theorem exec_bind_of_iff {p : Prog C R α} {s s₁ : σ} {a₁ : α}
    (h : ∀ a s', Exec act p s a s' ↔ a = a₁ ∧ s' = s₁) {f : α → Prog C R β} {s'' : σ} {b : β} :
    Exec act (p >>= f) s b s'' ↔ Exec act (f a₁) s₁ b s'' := by
  rw [exec_bind]
  constructor
  · rintro ⟨a, s', hp, hf⟩
    obtain ⟨rfl, rfl⟩ := (h a s').1 hp
    exact hf
  · intro hf
    exact ⟨a₁, s₁, (h a₁ s₁).2 ⟨rfl, rfl⟩, hf⟩

/-- Runs against a server are runs against one that it refines. -/
theorem Exec.map {τ : Type} {act' : (c : C) → τ → R c → τ → Prop} (f : σ → τ)
    (h : ∀ c s r s', act c s r s' → act' c (f s) r (f s')) {p : Prog C R α} {s s' : σ} {a : α}
    (hexec : Exec act p s a s') : Exec act' p (f s) a (f s') := by
  induction p generalizing s with
  | pure b =>
    obtain ⟨rfl, rfl⟩ := hexec
    exact ⟨rfl, rfl⟩
  | call c next ih =>
    obtain ⟨r, s₁, hact, hrest⟩ := hexec
    exact ⟨r, f s₁, h c s r s₁ hact, ih r hrest⟩

/-- A server that answers at once is one of the servers that `act` describes. -/
theorem exec_of_run {serve : (c : C) → σ → Option (R c × σ)}
    (h : ∀ c s r s', serve c s = some (r, s') → act c s r s') {p : Prog C R α} {s s' : σ} {a : α}
    (hrun : run serve p s = some (a, s')) : Exec act p s a s' := by
  induction p generalizing s with
  | pure b =>
    cases hrun
    exact ⟨rfl, rfl⟩
  | call c next ih =>
    obtain ⟨⟨r, s₁⟩, hserve, hrest⟩ := Option.bind_eq_some_iff.1 hrun
    exact ⟨r, s₁, h c s r s₁ hserve, ih r hrest⟩

/-- The run against a server that answers at once is the only one. -/
theorem run_of_exec {serve : (c : C) → σ → Option (R c × σ)}
    (h : ∀ c s r s', act c s r s' → serve c s = some (r, s')) {p : Prog C R α} {s s' : σ} {a : α}
    (hexec : Exec act p s a s') : run serve p s = some (a, s') := by
  induction p generalizing s with
  | pure b =>
    obtain ⟨rfl, rfl⟩ := hexec
    rfl
  | call c next ih =>
    obtain ⟨r, s₁, hact, hrest⟩ := hexec
    rw [run, h c s r s₁ hact, Option.bind_some, ih r hrest]

theorem all_bind {p : Prog C R α} {f : α → Prog C R β} (hp : All P p) (hf : ∀ a, All P (f a)) :
    All P (p >>= f) := by
  change All P (p.bind f)
  induction p with
  | pure a => exact hf a
  | call c next ih => exact ⟨hp.1, fun r => ih r (hp.2 r)⟩

@[simp] theorem all_perform {c : C} : All P (perform c : Prog C R (R c)) ↔ P c :=
  ⟨And.left, fun h => ⟨h, fun _ => trivial⟩⟩

/-- The program can run, and only to `a` and `s₁`. -/
def Gives (act : (c : C) → σ → R c → σ → Prop) (p : Prog C R α) (s : σ) (a : α) (s₁ : σ) : Prop :=
  ∀ r s', Exec act p s r s' ↔ r = a ∧ s' = s₁

theorem gives_pure (a : α) (s : σ) : Gives act (Pure.pure a : Prog C R α) s a s := fun _ _ => exec_pure

theorem Gives.bind {p : Prog C R α} {f : α → Prog C R β} {s s₁ s₂ : σ} {a : α} {b : β}
    (hp : Gives act p s a s₁) (hf : Gives act (f a) s₁ b s₂) : Gives act (p >>= f) s b s₂ := by
  intro r s'
  rw [exec_bind_of_iff hp]
  exact hf r s'

theorem Gives.exec {p : Prog C R α} {s s₁ : σ} {a : α} (h : Gives act p s a s₁) : Exec act p s a s₁ :=
  (h a s₁).2 ⟨rfl, rfl⟩

theorem exec_embed {τ : Type} {act' : (c : C) → τ → R c → τ → Prop} (f : σ → τ)
    (h : ∀ c, P c → ∀ s r s', act' c (f s) r s' ↔ ∃ s₁, s' = f s₁ ∧ act c s r s₁) {p : Prog C R α}
    (hp : All P p) {s : σ} {a : α} {s' : τ} :
    Exec act' p (f s) a s' ↔ ∃ s₁, s' = f s₁ ∧ Exec act p s a s₁ := by
  induction p generalizing s with
  | pure b =>
    constructor
    · rintro ⟨rfl, rfl⟩
      exact ⟨s, rfl, rfl, rfl⟩
    · rintro ⟨s₁, rfl, rfl, rfl⟩
      exact ⟨rfl, rfl⟩
  | call c next ih =>
    constructor
    · rintro ⟨r, s₁, hact, hrest⟩
      obtain ⟨s₂, rfl, hact₂⟩ := (h c hp.1 s r s₁).1 hact
      obtain ⟨s₃, rfl, hrest₃⟩ := (ih r (hp.2 r)).1 hrest
      exact ⟨s₃, rfl, r, s₂, hact₂, hrest₃⟩
    · rintro ⟨s₁, rfl, r, s₂, hact, hrest⟩
      refine ⟨r, f s₂, (h c hp.1 s r _).2 ⟨s₂, rfl, hact⟩, ?_⟩
      exact (ih r (hp.2 r)).2 ⟨s₁, rfl, hrest⟩

theorem Gives.embed {τ : Type} {act' : (c : C) → τ → R c → τ → Prop} (f : σ → τ)
    (h : ∀ c, P c → ∀ s r s', act' c (f s) r s' ↔ ∃ s₁, s' = f s₁ ∧ act c s r s₁) {p : Prog C R α}
    (hp : All P p) {s s₁ : σ} {a : α} (hgives : Gives act p s a s₁) : Gives act' p (f s) a (f s₁) := by
  intro r s'
  rw [exec_embed f h hp]
  constructor
  · rintro ⟨s₂, rfl, hexec⟩
    obtain ⟨rfl, rfl⟩ := (hgives r s₂).1 hexec
    exact ⟨rfl, rfl⟩
  · rintro ⟨rfl, rfl⟩
    exact ⟨s₁, rfl, hgives.exec⟩

end Prog

/-- The shared state and what is left of the program of each thread. -/
structure Pool (C : Type) (R : C → Type) (T σ α : Type) where
  state : σ
  prog : T → Prog C R α

section
variable {C : Type} {R : C → Type} {T σ α : Type}

/-- Some thread makes its next call. -/
inductive Pool.Step [DecidableEq T] (serve : T → (c : C) → σ → R c → σ → Prop) :
    Pool C R T σ α → Pool C R T σ α → Prop
  | call {p : Pool C R T σ α} {t : T} {c : C} {next : R c → Prog C R α} {r : R c} {s' : σ}
      (hprog : p.prog t = .call c next) (hserve : serve t c p.state r s') :
      Step serve p ⟨s', Function.update p.prog t (next r)⟩

inductive Prog.Next : Prog C R α → Prog C R α → Prop
  | call (c : C) (next : R c → Prog C R α) (r : R c) : Next (.call c next) (next r)

private theorem wellFounded_next : WellFounded fun q p : Prog C R α => Prog.Next p q := by
  refine ⟨fun p => ?_⟩
  induction p with
  | pure a =>
    refine ⟨_, fun q h => ?_⟩
    cases h
  | call c next ih =>
    refine ⟨_, fun q h => ?_⟩
    cases h
    exact ih _

private theorem wellFounded_step [Finite T] [DecidableEq T] (serve : T → (c : C) → σ → R c → σ → Prop) :
    WellFounded fun p' p : Pool C R T σ α => Pool.Step serve p p' := by
  have hlex := Pi.Lex.wellFounded (WellOrderingRel (α := T))
    (fun _ => wellFounded_next (C := C) (R := R) (α := α))
  refine Subrelation.wf ?_ (InvImage.wf Pool.prog hlex)
  rintro _ p (@⟨t, c, next, r, s', hprog, -⟩)
  refine ⟨t, fun u hu => Function.update_of_ne (ne_of_irrefl hu) _ _, ?_⟩
  simp only [Function.update_self, hprog]
  exact .call c next r

/-- Finitely many threads come to an end, whatever the server does: in each step one program gets
shorter and the others stay. -/
theorem Pool.exists_not_step [Finite T] [DecidableEq T] (serve : T → (c : C) → σ → R c → σ → Prop)
    (run : ℕ → Pool C R T σ α) : ∃ n, ¬Pool.Step serve (run n) (run (n + 1)) := by
  have hwf : IsWellFounded _ fun p' p : Pool C R T σ α => Pool.Step serve p p' := ⟨wellFounded_step serve⟩
  exact WellFounded.not_rel_apply_succ (h := hwf) run

theorem Pool.run_of_exec_bind [DecidableEq T] {serve : T → (c : C) → σ → R c → σ → Prop} {β : Type} {t : T}
    {q : Prog C R β} {f : β → Prog C R α} {s s' : σ} {b : β}
    (h : q.Exec (serve t) s b s') (prog : T → Prog C R α) (hprog : prog t = q >>= f) :
    Relation.ReflTransGen (Pool.Step serve) ⟨s, prog⟩ ⟨s', Function.update prog t (f b)⟩ := by
  change prog t = q.bind f at hprog
  induction q generalizing s prog with
  | pure a =>
    obtain ⟨rfl, rfl⟩ := h
    have hsame : f b = prog t := hprog.symm
    rw [hsame, Function.update_eq_self]
  | call c next ih =>
    obtain ⟨r, s₁, hserve, hrest⟩ := h
    have hstep : Pool.Step serve ⟨s, prog⟩ ⟨s₁, Function.update prog t ((next r).bind f)⟩ :=
      Pool.Step.call (p := ⟨s, prog⟩) hprog hserve
    have hrun := ih r hrest _ (Function.update_self t ((next r).bind f) prog)
    rw [Function.update_idem] at hrun
    exact hrun.head hstep

/-- The run in which the threads make their calls in the order of a list. -/
def Pool.play [DecidableEq T] (reply : T → (c : C) → σ → Option (R c × σ)) :
    List T → Pool C R T σ α → Option (Pool C R T σ α)
  | [], p => some p
  | t :: l, p =>
    match p.prog t with
    | .pure _ => none
    | .call c next =>
      (reply t c p.state).bind fun q => play reply l ⟨q.2, Function.update p.prog t (next q.1)⟩

theorem Pool.run_of_play [DecidableEq T] {reply : T → (c : C) → σ → Option (R c × σ)}
    {serve : T → (c : C) → σ → R c → σ → Prop}
    (h : ∀ t c s r s', reply t c s = some (r, s') → serve t c s r s') {l : List T} {p p' : Pool C R T σ α}
    (hplay : Pool.play reply l p = some p') : Relation.ReflTransGen (Pool.Step serve) p p' := by
  induction l generalizing p with
  | nil =>
    cases hplay
    exact .refl
  | cons t l ih =>
    unfold Pool.play at hplay
    split at hplay
    next => cases hplay
    next c next hprog =>
      obtain ⟨⟨r, s'⟩, hreply, hrest⟩ := Option.bind_eq_some_iff.1 hplay
      exact (ih hrest).head (.call hprog (h t c _ r s' hreply))

/-- Locks among the calls of a server. `view s l` is the part of the state that lock `l` guards,
`own l` are the calls that its holder may make, and `act` is what they do to that part. -/
structure Locking (serve : T → (c : C) → σ → R c → σ → Prop) (L V : Type) [DecidableEq L] where
  acquire : L → C
  release : L → C
  holder : σ → L → Option T
  view : σ → L → V
  own : L → C → Prop
  act : (c : C) → V → R c → V → Prop
  valid : σ → Prop
  acquire_spec : ∀ {t l s r s'}, valid s → serve t (acquire l) s r s' →
    valid s' ∧ holder s l = none ∧ holder s' = Function.update (holder s) l (some t) ∧ view s' = view s
  release_spec : ∀ {t l s r s'}, valid s → serve t (release l) s r s' →
    valid s' ∧ holder s' = Function.update (holder s) l none ∧ view s' = view s
  own_spec : ∀ {t l c s r s'}, valid s → own l c → serve t c s r s' →
    valid s' ∧ holder s' = holder s ∧ act c (view s l) r (view s' l) ∧
      ∀ l', l' ≠ l → view s' l' = view s l'

/-- Bodies executed one after the other, each with its result. -/
inductive Serial {V : Type} (act : (c : C) → V → R c → V → Prop) (body : T → Prog C R α) (v₀ : V) :
    List (T × α) → V → Prop
  | nil : Serial act body v₀ [] v₀
  | snoc {l : List (T × α)} {v v' : V} {t : T} {a : α} (hl : Serial act body v₀ l v)
      (ht : (body t).Exec act v a v') : Serial act body v₀ (l ++ [(t, a)]) v'

namespace Locking
variable {serve : T → (c : C) → σ → R c → σ → Prop} {L V : Type} [DecidableEq L]
  (k : Locking serve L V)

/-- What is left of a section when `p` is left of its body. -/
def rest (l : L) (p : Prog C R α) : Prog C R α := p.bind fun a => .call (k.release l) fun _ => .pure a

/-- The body `p` between taking lock `l` and giving it back. -/
def guarded (l : L) (p : Prog C R α) : Prog C R α := .call (k.acquire l) fun _ => k.rest l p

/-- What the holder of a lock has done since value `v`: whatever the rest of its body does, the
whole body does from `v`. -/
def Inside (body : T → Prog C R α) (l : L) (t : T) (v : V) (p : Pool C R T σ α) : Prop :=
  ∃ q, p.prog t = k.rest l q ∧ q.All (k.own l) ∧
    ∀ a v', q.Exec k.act (k.view p.state l) a v' → (body t).Exec k.act v a v'

/-- The state of lock `l`: the threads that are done with it ran one after the other. -/
def Serialized (lock : T → L) (body : T → Prog C R α) (s₀ : σ) (p : Pool C R T σ α) (l : L) : Prop :=
  ∃ done v, Serial k.act body (k.view s₀ l) done v ∧ (done.map Prod.fst).Nodup ∧
    (∀ t a, (t, a) ∈ done ↔ lock t = l ∧ p.prog t = .pure a) ∧
    (k.holder p.state l = none → k.view p.state l = v) ∧
    ∀ t, k.holder p.state l = some t → lock t = l ∧ k.Inside body l t v p

/-- The invariant of a pool of guarded programs. -/
structure Invariant (lock : T → L) (body : T → Prog C R α) (s₀ : σ) (p : Pool C R T σ α) : Prop where
  valid : k.valid p.state
  thread : ∀ t, p.prog t = k.guarded (lock t) (body t) ∨ k.holder p.state (lock t) = some t ∨
    ∃ a, p.prog t = .pure a
  serialized : ∀ l, k.Serialized lock body s₀ p l

section
variable {k} {lock : T → L} {body : T → Prog C R α} {s₀ : σ} {p : Pool C R T σ α} {l : L} {t : T}

theorem invariant_init (hvalid : k.valid s₀) (hfree : ∀ l, k.holder s₀ l = none) :
    k.Invariant lock body s₀ ⟨s₀, fun t => k.guarded (lock t) (body t)⟩ := by
  refine ⟨hvalid, fun t => .inl rfl, fun l => ⟨[], k.view s₀ l, .nil, List.nodup_nil, ?_, fun _ => rfl, ?_⟩⟩
  · intro t a
    simp [guarded]
  · intro t ht
    rw [hfree l] at ht
    cases ht

theorem rest_ne_pure (l : L) (q : Prog C R α) (a : α) : k.rest l q ≠ .pure a := by
  cases q <;> simp [rest, Prog.bind]

theorem Invariant.holder_eq (h : k.Invariant lock body s₀ p) (hl : l ≠ lock t) :
    k.holder p.state l ≠ some t := by
  obtain ⟨_, _, _, _, _, _, hholder⟩ := h.serialized l
  exact fun ht => hl (hholder t ht).1.symm

variable [DecidableEq T]

/-- A step of another thread that leaves the lock, its holder and its value alone. -/
theorem Serialized.frame (h : k.Serialized lock body s₀ p l) {s' : σ} {q : Prog C R α}
    (hheld : k.holder s' l = k.holder p.state l) (hview : k.view s' l = k.view p.state l)
    (hother : k.holder p.state l ≠ some t) (hbefore : ∀ a, p.prog t ≠ .pure a)
    (hafter : lock t = l → ∀ a, q ≠ .pure a) :
    k.Serialized lock body s₀ ⟨s', Function.update p.prog t q⟩ l := by
  obtain ⟨done, v, hserial, hnodup, hdone, hfree, hholder⟩ := h
  refine ⟨done, v, hserial, hnodup, fun u a => ?_, fun hnone => ?_, fun u hu => ?_⟩
  · rw [hdone]
    by_cases hut : u = t
    · subst hut
      simp only [Function.update_self]
      constructor
      · rintro ⟨-, hpure⟩
        exact absurd hpure (hbefore a)
      · rintro ⟨hl, hpure⟩
        exact absurd hpure (hafter hl a)
    · simp only [Function.update_of_ne hut]
  · rw [hview]
    exact hfree (hheld ▸ hnone)
  · have hu' : k.holder p.state l = some u := hheld ▸ hu
    have hut : u ≠ t := fun heq => hother (heq ▸ hu')
    obtain ⟨hl, q', hprog, hall, hexec⟩ := hholder u hu'
    refine ⟨hl, q', ?_, hall, ?_⟩
    · rw [← hprog]
      exact Function.update_of_ne hut _ _
    · rw [hview]
      exact hexec

theorem Invariant.thread_update (h : k.Invariant lock body s₀ p) {s' : σ} {q : Prog C R α}
    (ht : k.holder s' (lock t) = some t ∨ ∃ a, q = .pure a)
    (hothers : ∀ u, u ≠ t → k.holder p.state (lock u) = some u → k.holder s' (lock u) = some u) (u : T) :
    Function.update p.prog t q u = k.guarded (lock u) (body u) ∨ k.holder s' (lock u) = some u ∨
      ∃ a, Function.update p.prog t q u = .pure a := by
  by_cases hut : u = t
  · subst hut
    rw [Function.update_self]
    exact .inr ht
  · rw [Function.update_of_ne hut]
    exact (h.thread u).imp_right (Or.imp_left (hothers u hut))

theorem Invariant.acquire (h : k.Invariant lock body s₀ p)
    (hall : (body t).All (k.own (lock t))) (hwait : p.prog t = k.guarded (lock t) (body t))
    {r : R (k.acquire (lock t))} {s' : σ} (hserve : serve t (k.acquire (lock t)) p.state r s') :
    k.Invariant lock body s₀ ⟨s', Function.update p.prog t (k.rest (lock t) (body t))⟩ := by
  obtain ⟨hvalid, hnone, hholder', hview⟩ := k.acquire_spec h.valid hserve
  have hbefore : ∀ a, p.prog t ≠ .pure a := by
    intro a
    rw [hwait]
    simp [guarded]
  refine ⟨hvalid, h.thread_update (.inl ?_) fun u _ hu => ?_, fun l => ?_⟩
  · rw [hholder', Function.update_self]
  · have hne : lock u ≠ lock t := fun heq => by
      rw [heq, hnone] at hu
      cases hu
    rw [hholder', Function.update_of_ne hne, hu]
  · by_cases hl : l = lock t
    · subst hl
      obtain ⟨done, v, hserial, hnodup, hdone, hfree, -⟩ := h.serialized (lock t)
      refine ⟨done, v, hserial, hnodup, fun u a => ?_, fun hfree' => ?_, fun u hu => ?_⟩
      · rw [hdone]
        by_cases hut : u = t
        · subst hut
          simp only [Function.update_self, rest_ne_pure, hbefore, and_false]
        · simp only [Function.update_of_ne hut]
      · rw [hholder', Function.update_self] at hfree'
        cases hfree'
      · rw [hholder', Function.update_self] at hu
        cases hu
        refine ⟨rfl, body t, Function.update_self _ _ _, hall, fun a v' hexec => ?_⟩
        rw [hview, hfree hnone] at hexec
        exact hexec
    · refine (h.serialized l).frame ?_ (by rw [hview]) (h.holder_eq hl) hbefore fun hlt => absurd hlt.symm hl
      rw [hholder', Function.update_of_ne hl]

theorem Invariant.call (h : k.Invariant lock body s₀ p) (hheld : k.holder p.state (lock t) = some t)
    {done : List (T × α)} {v : V} (hserial : Serial k.act body (k.view s₀ (lock t)) done v)
    (hnodup : (done.map Prod.fst).Nodup)
    (hdone : ∀ u a, (u, a) ∈ done ↔ lock u = lock t ∧ p.prog u = .pure a) {c : C}
    {next : R c → Prog C R α} (hprog : p.prog t = k.rest (lock t) (.call c next))
    (hall : (Prog.call c next).All (k.own (lock t)))
    (hexec : ∀ a v', (Prog.call c next).Exec k.act (k.view p.state (lock t)) a v' →
      (body t).Exec k.act v a v') {r : R c} {s' : σ} (hserve : serve t c p.state r s') :
    k.Invariant lock body s₀ ⟨s', Function.update p.prog t (k.rest (lock t) (next r))⟩ := by
  obtain ⟨hvalid, hholder', hact, hothers⟩ := k.own_spec h.valid hall.1 hserve
  have hbefore : ∀ a, p.prog t ≠ .pure a := fun a => hprog ▸ rest_ne_pure (lock t) _ a
  refine ⟨hvalid, h.thread_update (.inl ?_) fun u _ hu => ?_, fun l => ?_⟩
  · rw [hholder', hheld]
  · rw [hholder', hu]
  · by_cases hl : l = lock t
    · subst hl
      refine ⟨done, v, hserial, hnodup, fun u a => ?_, fun hfree => ?_, fun u hu => ?_⟩
      · rw [hdone]
        by_cases hut : u = t
        · subst hut
          simp only [Function.update_self, rest_ne_pure, hbefore, and_false]
        · simp only [Function.update_of_ne hut]
      · rw [hholder', hheld] at hfree
        cases hfree
      · rw [hholder', hheld] at hu
        cases hu
        exact ⟨rfl, next r, Function.update_self _ _ _, hall.2 r,
          fun a v' hrest => hexec a v' ⟨r, _, hact, hrest⟩⟩
    · exact (h.serialized l).frame (by rw [hholder']) (hothers l hl) (h.holder_eq hl) hbefore
        fun hlt => absurd hlt.symm hl

theorem Invariant.release (h : k.Invariant lock body s₀ p) (hheld : k.holder p.state (lock t) = some t)
    {done : List (T × α)} {v : V} (hserial : Serial k.act body (k.view s₀ (lock t)) done v)
    (hnodup : (done.map Prod.fst).Nodup)
    (hdone : ∀ u a, (u, a) ∈ done ↔ lock u = lock t ∧ p.prog u = .pure a) {a : α}
    (hprog : p.prog t = k.rest (lock t) (.pure a))
    (hexec : (body t).Exec k.act v a (k.view p.state (lock t))) {r : R (k.release (lock t))} {s' : σ}
    (hserve : serve t (k.release (lock t)) p.state r s') :
    k.Invariant lock body s₀ ⟨s', Function.update p.prog t (.pure a)⟩ := by
  obtain ⟨hvalid, hholder', hview⟩ := k.release_spec h.valid hserve
  have hbefore : ∀ a, p.prog t ≠ .pure a := fun b => hprog ▸ rest_ne_pure (lock t) _ b
  have hnot : t ∉ done.map Prod.fst := by
    intro ht
    obtain ⟨⟨u, b⟩, hmem, rfl⟩ := List.mem_map.1 ht
    exact hbefore b ((hdone u b).1 hmem).2
  refine ⟨hvalid, h.thread_update (.inr ⟨a, rfl⟩) fun u hut hu => ?_, fun l => ?_⟩
  · have hne : lock u ≠ lock t := fun heq => by
      rw [heq, hheld] at hu
      exact hut (Option.some.inj hu).symm
    rw [hholder', Function.update_of_ne hne, hu]
  · by_cases hl : l = lock t
    · subst hl
      refine ⟨done ++ [(t, a)], k.view p.state (lock t), hserial.snoc hexec, ?_, fun u b => ?_, fun _ => ?_,
        fun u hu => ?_⟩
      · rw [List.map_append, List.map_singleton, List.nodup_append]
        refine ⟨hnodup, List.nodup_singleton _, fun x hx y hy hxy => hnot ?_⟩
        rwa [hxy, List.mem_singleton.1 hy] at hx
      · rw [List.mem_append, List.mem_singleton, hdone]
        by_cases hut : u = t
        · subst hut
          simp only [Function.update_self, hbefore, and_false, false_or, Prod.mk.injEq, true_and,
            Prog.pure.injEq]
          exact eq_comm
        · simp only [Function.update_of_ne hut, Prod.mk.injEq, hut, false_and, or_false]
      · rw [hview]
      · rw [hholder', Function.update_self] at hu
        cases hu
    · refine (h.serialized l).frame ?_ (by rw [hview]) (h.holder_eq hl) hbefore fun hlt => absurd hlt.symm hl
      rw [hholder', Function.update_of_ne hl]

theorem Invariant.step (hall : ∀ t, (body t).All (k.own (lock t))) (h : k.Invariant lock body s₀ p)
    {p' : Pool C R T σ α} (hstep : Pool.Step serve p p') : k.Invariant lock body s₀ p' := by
  obtain @⟨t, c, next, r, s', hprog, hserve⟩ := hstep
  rcases h.thread t with hwait | hheld | ⟨a, hpure⟩
  · have heq := hwait.symm.trans hprog
    unfold guarded at heq
    cases heq
    exact h.acquire (hall t) hwait hserve
  · obtain ⟨done, v, hserial, hnodup, hdone, -, hholder⟩ := h.serialized (lock t)
    obtain ⟨-, q, hq, hown, hexec⟩ := hholder t hheld
    have heq := hq.symm.trans hprog
    cases q with
    | pure a =>
      unfold rest Prog.bind at heq
      cases heq
      exact h.release hheld hserial hnodup hdone hq (hexec a _ ⟨rfl, rfl⟩) hserve
    | call c' next' =>
      unfold rest Prog.bind at heq
      cases heq
      exact h.call hheld hserial hnodup hdone hq hown hexec hserve
  · rw [hpure] at hprog
    cases hprog

/-- Guarded programs are serializable: in every state of every run the threads that are done with
a lock ran one after the other. -/
theorem invariant_of_run (hvalid : k.valid s₀) (hfree : ∀ l, k.holder s₀ l = none)
    (hall : ∀ t, (body t).All (k.own (lock t)))
    (hrun : Relation.ReflTransGen (Pool.Step serve) ⟨s₀, fun t => k.guarded (lock t) (body t)⟩ p) :
    k.Invariant lock body s₀ p := by
  induction hrun with
  | refl => exact invariant_init hvalid hfree
  | tail _ hstep ih => exact ih.step hall hstep

/-- There is no deadlock: when not all threads are done, one of them can make its next call. -/
theorem Invariant.exists_step (h : k.Invariant lock body s₀ p)
    (hacquire : ∀ t l, k.holder p.state l = none → ∃ r s', serve t (k.acquire l) p.state r s')
    (hrelease : ∀ t l, k.holder p.state l = some t → ∃ r s', serve t (k.release l) p.state r s')
    (hown : ∀ t l c, k.own l c → ∃ r s', serve t c p.state r s') (ht : ∀ a, p.prog t ≠ .pure a) :
    ∃ p', Pool.Step serve p p' := by
  -- the holder of a lock goes on inside, or gives the lock back
  have hinside : ∀ {u l}, k.holder p.state l = some u → ∃ p', Pool.Step serve p p' := by
    intro u l hheld
    obtain ⟨_, _, -, -, -, -, hholder⟩ := h.serialized l
    obtain ⟨-, q, hprog, hall, -⟩ := hholder u hheld
    cases q with
    | pure a =>
      obtain ⟨r, s', hserve⟩ := hrelease u l hheld
      exact ⟨_, .call hprog hserve⟩
    | call c next =>
      obtain ⟨r, s', hserve⟩ := hown u l c hall.1
      exact ⟨_, .call hprog hserve⟩
  rcases h.thread t with hwait | hheld | ⟨a, hpure⟩
  · cases hheld : k.holder p.state (lock t) with
    | none =>
      obtain ⟨r, s', hserve⟩ := hacquire t (lock t) hheld
      exact ⟨_, .call hwait hserve⟩
    | some u => exact hinside hheld
  · exact hinside hheld
  · exact absurd hpure (ht a)

omit [DecidableEq T] in
/-- When all threads are done, what a lock guards is what the bodies under that lock make of it
one after the other. -/
theorem Invariant.serial_of_end (h : k.Invariant lock body s₀ p) (hend : ∀ t, ∃ a, p.prog t = .pure a)
    (l : L) : ∃ done, Serial k.act body (k.view s₀ l) done (k.view p.state l) ∧
      (done.map Prod.fst).Nodup ∧ ∀ t a, (t, a) ∈ done ↔ lock t = l ∧ p.prog t = .pure a := by
  obtain ⟨done, v, hserial, hnodup, hdone, hfree, hholder⟩ := h.serialized l
  have hnone : k.holder p.state l = none := by
    cases hheld : k.holder p.state l with
    | none => rfl
    | some t =>
      obtain ⟨-, q, hprog, -⟩ := hholder t hheld
      obtain ⟨a, ha⟩ := hend t
      exact absurd (hprog.symm.trans ha) (rest_ne_pure l q a)
  rw [hfree hnone]
  exact ⟨done, hserial, hnodup, hdone⟩

end
end Locking

end
end Yfs.Lib
