import Yfs.Client.World

/-! `write` and `setattr` on one file refine a zero-filled array of bytes. -/
namespace Yfs.Client
open Yfs.Lib Yfs.Extent

/-- The reference model of a file: its size, and a byte at every index. From the size on the
bytes are zero. -/
@[ext]
structure Image where
  size : ℕ
  byte : ℕ → UInt8

namespace Image

def ofContent (content : Str) : Image := ⟨content.length, fun i => content.getD i 0⟩

/-- The bytes from `off` on are replaced by `data`; a gap below `off` is zero already. -/
def write (image : Image) (off : ℕ) (data : Str) : Image where
  size := max image.size (off + data.length)
  byte i := if off ≤ i ∧ i < off + data.length then data.getD (i - off) 0 else image.byte i

/-- Cut off or filled up with zeros. -/
def truncate (image : Image) (n : ℕ) : Image where
  size := n
  byte i := if i < n then image.byte i else 0

theorem ofContent_injective : Function.Injective ofContent := by
  intro content content' h
  have hlen : content.length = content'.length := congrArg Image.size h
  refine List.ext_getElem hlen fun i hi hi' => ?_
  have hbyte : content.getD i 0 = content'.getD i 0 := congrFun (congrArg Image.byte h) i
  rwa [List.getD_eq_getElem _ _ hi, List.getD_eq_getElem _ _ hi'] at hbyte

theorem getD_zeros (content : Str) (n i : ℕ) :
    (content ++ List.replicate n 0).getD i 0 = content.getD i 0 := by
  rcases lt_or_ge i content.length with h | h
  · rw [List.getD_append _ _ _ _ h]
  · rw [List.getD_append_right _ _ _ _ h, List.getD_eq_default _ _ h]
    rw [List.getD_eq_getElem?_getD, List.getElem?_replicate]
    split_ifs <;> rfl

private theorem getD_append_at {front : Str} {n : ℕ} (h : front.length = n) (back : Str) (i : ℕ) :
    (front ++ back).getD i 0 = if i < n then front.getD i 0 else back.getD (i - n) 0 := by
  split_ifs with hi
  · rw [List.getD_append _ _ _ _ (by omega)]
  · rw [List.getD_append_right _ _ _ _ (by omega), h]

theorem getD_take (content : Str) (n i : ℕ) :
    (content.take n).getD i 0 = if i < n then content.getD i 0 else 0 := by
  simp only [List.getD_eq_getElem?_getD, List.getElem?_take]
  split_ifs <;> rfl

theorem ofContent_writeAt (content : Str) (off : ℕ) (data : Str) :
    ofContent (writeAt content off data) = (ofContent content).write off data := by
  unfold writeAt
  split_ifs with hgap
  · have hlen : (content ++ List.replicate (off - content.length) 0).length = off := by
      simp
      omega
    ext i
    · simp only [ofContent, write, List.length_append, hlen]
      omega
    · simp only [ofContent, write, getD_append_at hlen, getD_zeros]
      -- past the new data both sides have run out of bytes
      rcases lt_or_ge i (off + data.length) with hi | hi
      · split_ifs <;> first | rfl | omega
      · rw [if_neg (by omega), if_neg (by omega), List.getD_eq_default _ _ (by omega),
          List.getD_eq_default _ _ (by omega)]
  · have htake : (content.take off).length = off := by
      rw [List.length_take]
      omega
    have hfront : (content.take off ++ data).length = off + data.length := by
      rw [List.length_append, htake]
    ext i
    · simp only [ofContent, write, List.length_append, htake, List.length_drop]
      omega
    · simp only [ofContent, write, getD_append_at hfront, getD_append_at htake, getD_take]
      rcases lt_or_ge i (off + data.length) with hi | hi
      · split_ifs <;> first | rfl | omega
      · rw [if_neg (by omega), if_neg (by omega), List.getD_eq_getElem?_getD, List.getElem?_drop,
          Nat.add_sub_cancel' hi, ← List.getD_eq_getElem?_getD]

theorem ofContent_resize (content : Str) (n : ℕ) :
    ofContent (resize content n) = (ofContent content).truncate n := by
  unfold resize
  ext i
  · simp only [ofContent, truncate, List.length_append, List.length_take, List.length_replicate]
    omega
  · simp only [ofContent, truncate, getD_zeros, getD_take]

end Image

/-- A call of `write` or `setattr`, within the range where no conversion between `size_t`,
`off_t` and `int` changes a value. -/
inductive Edit where
  | write (off : ℕ) (data : Str) (hrange : off + data.length < 2 ^ 31)
  | setattr (n : ℕ) (hrange : n < 2 ^ 31)

namespace Edit

def call (ino : UInt64) : Edit → M YfsStatus
  | .write off data _ => do
    let (r, _) ← Client.write ino off data
    pure r
  | .setattr n _ => Client.setattr ino n

/-- The same call on the reference model. -/
def image : Edit → Image → Image
  | .write off data _, i => i.write off data
  | .setattr n _, i => i.truncate n

def callAll (ino : UInt64) : List Edit → M (List YfsStatus)
  | [] => pure []
  | e :: l => do
    let r ← e.call ino
    let rs ← callAll ino l
    pure (r :: rs)

section
variable {T : Type} {t : T} {w w' : World T} {ino : UInt64} {type : UInt32} {content : Str}

theorem exec_section {α : Type} {p : M α} {a₁ : α} {content' : Str}
    (hfile : w.files ino = some (type, content)) (hfree : w.lock ino = none)
    (hp : ∀ w₁ : World T, w₁.files ino = some (type, content) → ∀ a w₂, p.Exec (World.serve t) w₁ a w₂ ↔
      a = a₁ ∧ w₂ = { w₁ with files := w₁.files.put ino content' }) (a : α) (w' : World T) :
    (locked ino p).Exec (World.serve t) w a w' ↔
      a = a₁ ∧ w' = { w with files := w.files.put ino content' } := by
  have hback : Function.update (Function.update w.lock ino (some t)) ino none = w.lock := by
    rw [Function.update_idem, ← hfree, Function.update_eq_self]
  have hsection := hp ⟨w.files, Function.update w.lock ino (some t)⟩ hfile
  rw [exec_locked]
  constructor
  · rintro ⟨-, w₁, hexec, -, rfl⟩
    obtain ⟨rfl, rfl⟩ := (hsection a w₁).1 hexec
    exact ⟨rfl, by simp only [hback]⟩
  · rintro ⟨rfl, rfl⟩
    refine ⟨hfree, _, (hsection _ _).2 ⟨rfl, rfl⟩, ?_, by simp only [hback]⟩
    exact Function.update_self _ _ _

theorem exec_nlockWrite (off : ℕ) (data : Str) (hfile : w.files ino = some (type, content))
    (r : YfsStatus × ℕ) (w' : World T) : (nlockWrite ino off data).Exec (World.serve t) w r w' ↔
      r = (.ok, (if content.length < off then off - content.length else 0) + data.length) ∧
        w' = { w with files := w.files.put ino (writeAt content off data) } := by
  unfold nlockWrite
  rw [Prog.exec_bind_of_iff fun _ _ => exec_get, hfile]
  exact Prog.exec_bind_of_iff fun _ _ => exec_put

private theorem exec_nlockSetattr (n : ℕ) (hfile : w.files ino = some (type, content)) (r : YfsStatus)
    (w' : World T) : (nlockSetattr ino n).Exec (World.serve t) w r w' ↔
      r = .ok ∧ w' = { w with files := w.files.put ino (resize content n) } := by
  unfold nlockSetattr
  rw [Prog.exec_bind_of_iff fun _ _ => exec_get, hfile]
  exact Prog.exec_bind_of_iff fun _ _ => exec_put

def apply : Edit → Str → Str
  | .write off data _, content => writeAt content off data
  | .setattr n _, content => resize content n

theorem ofContent_apply (e : Edit) (content : Str) :
    Image.ofContent (e.apply content) = e.image (Image.ofContent content) := by
  cases e with
  | write off data _ => exact Image.ofContent_writeAt content off data
  | setattr n _ => exact Image.ofContent_resize content n

private theorem exec_call (e : Edit) (hfile : w.files ino = some (type, content)) (hfree : w.lock ino = none)
    (r : YfsStatus) (w' : World T) : (e.call ino).Exec (World.serve t) w r w' ↔
      r = .ok ∧ w' = { w with files := w.files.put ino (e.apply content) } := by
  cases e with
  | write off data hrange =>
    unfold call Client.write
    exact Prog.exec_bind_of_iff
      (exec_section hfile hfree fun w₁ hfile₁ => exec_nlockWrite off data hfile₁)
  | setattr n hrange => exact exec_section hfile hfree (fun w₁ hfile₁ => exec_nlockSetattr n hfile₁) r w'

theorem exec_callAll (edits : List Edit) (hfile : w.files ino = some (type, content))
    (hfree : w.lock ino = none) (rs : List YfsStatus) (w' : World T) :
    (callAll ino edits).Exec (World.serve t) w rs w' ↔
      rs = edits.map (fun _ => .ok) ∧
        w' = { w with files := w.files.put ino (edits.foldl (fun c e => e.apply c) content) } := by
  induction edits generalizing w content rs w' with
  | nil =>
    have hsame : w.files.put ino content = w.files := by
      rw [Files.put_of_live hfile, ← hfile, Function.update_eq_self]
    unfold callAll
    rw [Prog.exec_pure, List.map_nil, List.foldl_nil, hsame]
  | cons e edits ih =>
    have hfile' : w.files.put ino (e.apply content) ino = some (type, e.apply content) := by
      rw [Files.put_of_live hfile, Function.update_self]
    have hrest := ih (w := { w with files := w.files.put ino (e.apply content) }) hfile' hfree
    unfold callAll
    rw [Prog.exec_bind_of_iff (exec_call e hfile hfree), Prog.exec_bind_of_iff hrest, Prog.exec_pure,
      List.map_cons, List.foldl_cons, Files.put_put]

end
end Edit

/-- Every sequence of calls runs to its end, and whatever way it runs the file then holds what
the reference model says. -/
theorem content_refines {T : Type} (t : T) {w : World T} {ino : UInt64} {type : UInt32} {content : Str}
    (hfile : w.files ino = some (type, content)) (hfree : w.lock ino = none) (edits : List Edit) :
    (∃ rs w', (Edit.callAll ino edits).Exec (World.serve t) w rs w') ∧
    ∀ rs w', (Edit.callAll ino edits).Exec (World.serve t) w rs w' →
      (∀ r ∈ rs, r = .ok) ∧ (∀ id, id ≠ ino → w'.files id = w.files id) ∧
      ∃ content', w'.files ino = some (type, content') ∧
        Image.ofContent content' = edits.foldl (fun i e => e.image i) (Image.ofContent content) := by
  have hiff := Edit.exec_callAll (t := t) edits hfile hfree
  refine ⟨⟨_, _, (hiff _ _).2 ⟨rfl, rfl⟩⟩, fun rs w' hexec => ?_⟩
  obtain ⟨rfl, rfl⟩ := (hiff rs w').1 hexec
  rw [Files.put_of_live hfile]
  refine ⟨by simp, fun id hne => Function.update_of_ne hne _ _, _, Function.update_self _ _ _, ?_⟩
  exact (List.foldl_hom Image.ofContent fun c e => (Edit.ofContent_apply e c).symm).symm

/-- A write behind the end of a file of one byte, cut off again inside the gap. -/
theorem content_refines_gap :
    ∃ w' : World Unit, ∃ content', w'.files 2 = some (FileType.file.code, content') ∧
      Image.ofContent content' =
        ((Image.ofContent [5]).write 3 [7]).truncate 2 := by
  let w : World Unit := ⟨fun id => if id = 2 then some (FileType.file.code, [5]) else none, fun _ => none⟩
  have hfile : w.files 2 = some (FileType.file.code, [5]) := rfl
  have hfree : w.lock 2 = none := rfl
  obtain ⟨⟨rs, w', hexec⟩, hall⟩ :=
    content_refines () hfile hfree [.write 3 [7] (by decide), .setattr 2 (by decide)]
  obtain ⟨-, -, content', hfile, himage⟩ := hall rs w' hexec
  exact ⟨w', content', hfile, himage⟩

end Yfs.Client
