import Yfs.Client.Content
import Yfs.Client.Unlink

/-! The replies of `read` and `write` for one file: which bytes come back, and how many are said to be
written. -/
namespace Yfs.Client
open Yfs.Lib Yfs.Extent

theorem toNat_toUInt64 {off : Int64} (h : 0 ≤ off) : off.toUInt64.toNat = off.toInt.toNat := by
  have hle : 0 ≤ off.toInt := Int64.le_iff_toInt_le.1 h
  have hmsb : off.toBitVec.msb = false := by
    rw [BitVec.msb_eq_toInt, Int64.toInt_toBitVec]
    simpa using hle
  rw [← Int64.toInt_toBitVec, BitVec.toInt_eq_msb_cond, hmsb]
  rfl

theorem readAt_eq_iff {content : Str} (hlen : content.length < 2 ^ 31) (size : UInt64) {off : Int64}
    (hoff : 0 ≤ off) :
    readAt content size off = some ((content.drop off.toInt.toNat).take size.toNat) ↔
      off.toInt.toNat < content.length ∨ content.length ≤ off.toInt.toNat % 2 ^ 32 := by
  unfold readAt
  rw [toNat_toUInt64 hoff, Nat.mod_eq_of_lt (by omega : content.length < 2 ^ 32)]
  generalize off.toInt.toNat = n
  split_ifs with hcast hin
  · have hend : content.length ≤ n := hcast.trans (Nat.mod_le n _)
    rw [List.drop_eq_nil_of_le hend, List.take_nil]
    exact iff_of_true rfl (.inr hcast)
  · refine iff_of_true rfl (.inl ?_)
    -- `n` is no larger than the length, so the cast does not change it
    rw [Nat.mod_eq_of_lt (by omega)] at hcast
    omega
  · exact iff_of_false (by simp) (by omega)

section
variable {T : Type} {t : T} {w : World T} {ino : UInt64} {type : UInt32} {content : Str}

/-- `read` returns `OK` with the bytes of the content from `off` on, at most `size` of them. -/
def ReadsExactly (t : T) (w : World T) (ino : UInt64) (content : Str) (size : UInt64) (off : Int64) : Prop :=
  Shows t (read ino size off) w (some (.ok, (content.drop off.toInt.toNat).take size.toNat))

/-- `write` returns `OK` and reports as many bytes as it was given. -/
def WritesAll (t : T) (w : World T) (ino : UInt64) (off : ℕ) (data : Str) : Prop :=
  (∃ r w', (write ino off data).Exec (World.serve t) w r w') ∧
    ∀ r w', (write ino off data).Exec (World.serve t) w r w' → r = (.ok, data.length)

/-- The outcome of `read`. The exception of `substr` leaves the lock taken. -/
theorem exec_read (hfile : w.files ino = some (type, content)) (hfree : w.lock ino = none) (size : UInt64)
    (off : Int64) (r : Option (YfsStatus × Str)) (w' : World T) :
    (read ino size off).Exec (World.serve t) w r w' ↔
      r = (readAt content size off).map (fun data => (.ok, data)) ∧
        w' = if (readAt content size off).isSome then w
          else { w with lock := Function.update w.lock ino (some t) } := by
  have hbody : ∀ a w₁, (do
      let reply ← perform (.get ino)
      if reply.1 = .ok then pure ((readAt reply.2 size off).map fun data => (.ok, data))
      else pure (some (.ioerr, [])) : M (Option (YfsStatus × Str))).Exec (World.serve t)
      { w with lock := Function.update w.lock ino (some t) } a w₁ ↔
        a = (readAt content size off).map (fun data => (.ok, data)) ∧
          w₁ = { w with lock := Function.update w.lock ino (some t) } := by
    intro a w₁
    rw [Prog.exec_bind_of_iff fun _ _ => exec_get, hfile]
    exact Prog.exec_pure
  unfold read
  rw [exec_guarded, and_iff_right hfree]
  cases hread : readAt content size off with
  | none =>
    rw [hread] at hbody
    constructor
    · rintro ⟨a, w₁, hp, h⟩
      obtain ⟨rfl, rfl⟩ := (hbody a w₁).1 hp
      exact h
    · rintro ⟨rfl, rfl⟩
      exact ⟨none, _, (hbody _ _).2 ⟨rfl, rfl⟩, rfl, rfl⟩
  | some data =>
    rw [hread] at hbody
    constructor
    · rintro ⟨a, w₁, hp, h⟩
      obtain ⟨rfl, rfl⟩ := (hbody a w₁).1 hp
      obtain ⟨-, rfl, rfl⟩ := h
      exact ⟨rfl, by simp [update_back hfree]⟩
    · rintro ⟨rfl, rfl⟩
      refine ⟨some (.ok, data), _, (hbody _ _).2 ⟨rfl, rfl⟩, Function.update_self _ _ _, rfl, ?_⟩
      simp [update_back hfree]

theorem readsExactly_iff (hfile : w.files ino = some (type, content)) (hfree : w.lock ino = none)
    (size : UInt64) (off : Int64) : ReadsExactly t w ino content size off ↔
      readAt content size off = some ((content.drop off.toInt.toNat).take size.toNat) := by
  have hread := exec_read (t := t) hfile hfree size off
  constructor
  · intro h
    obtain ⟨heq, -⟩ := (hread _ _).1 ((h _ _).2 ⟨rfl, rfl⟩)
    obtain ⟨data, hdata, hsome⟩ := Option.map_eq_some_iff.1 heq.symm
    cases hsome
    exact hdata
  · intro h r w'
    rw [hread, h]
    rfl

theorem writesAll_iff (hfile : w.files ino = some (type, content)) (hfree : w.lock ino = none) (off : ℕ)
    (data : Str) : WritesAll t w ino off data ↔ off ≤ content.length := by
  have hwrite := Edit.exec_section (t := t) hfile hfree fun w₁ hfile₁ => Edit.exec_nlockWrite off data hfile₁
  constructor
  · intro h
    have hcount := congrArg Prod.snd (h.2 _ _ ((hwrite _ _).2 ⟨rfl, rfl⟩))
    dsimp only at hcount
    split_ifs at hcount <;> omega
  · intro h
    refine ⟨⟨_, _, (hwrite _ _).2 ⟨rfl, rfl⟩⟩, fun r w' hexec => ?_⟩
    obtain ⟨rfl, -⟩ := (hwrite r w').1 hexec
    rw [if_neg (by omega), Nat.zero_add]

/-- `read` gives back exactly the bytes of the range unless the offset lies behind the end and its low half
does not. `write` reports the bytes it was given unless there is a gap before them. -/
theorem replies_iff (hfile : w.files ino = some (type, content)) (hlen : content.length < 2 ^ 31)
    (hfree : w.lock ino = none) (size : UInt64) {off : Int64} (hoff : 0 ≤ off) (start : ℕ) (data : Str)
    (_hrange : start + data.length < 2 ^ 31) :
    ReadsExactly t w ino content size off ∧ WritesAll t w ino start data ↔
      (off.toInt.toNat < content.length ∨ content.length ≤ off.toInt.toNat % 2 ^ 32) ∧
        start ≤ content.length := by
  rw [readsExactly_iff hfile hfree, readAt_eq_iff hlen size hoff, writesAll_iff hfile hfree]

end

def oneByte : World Unit :=
  ⟨fun id => if id = 2 then some (FileType.file.code, [5]) else none, fun _ => none⟩

theorem replies_iff_oneByte : ReadsExactly () oneByte 2 [5] 10 0 ∧ WritesAll () oneByte 2 1 [7] := by
  have hfile : oneByte.files 2 = some (FileType.file.code, [5]) := rfl
  exact (replies_iff hfile (by decide) rfl 10 (by decide) 1 [7] (by decide)).2 (by decide)

/-- A read at `2 ^ 32` ends in the exception of `substr` with the lock taken. A write of one byte behind a
gap of two is said to have written three. -/
theorem replies_off_end :
    (∃ w', (read 2 1 4294967296).Exec (World.serve ()) oneByte none w' ∧ w'.lock 2 = some ()) ∧
    ¬ReadsExactly () oneByte 2 [5] 1 4294967296 ∧
    (∃ w', (write 2 3 [7]).Exec (World.serve ()) oneByte (.ok, 3) w') ∧ ¬WritesAll () oneByte 2 3 [7] := by
  have hfile : oneByte.files 2 = some (FileType.file.code, [5]) := rfl
  have hwrite := Edit.exec_section (t := ()) hfile rfl fun w₁ hfile₁ => Edit.exec_nlockWrite 3 [7] hfile₁
  refine ⟨⟨_, (exec_read hfile rfl 1 4294967296 none _).2 ⟨by decide, rfl⟩, rfl⟩, ?_,
    ⟨_, (hwrite _ _).2 ⟨rfl, rfl⟩⟩, ?_⟩
  · rw [readsExactly_iff hfile rfl]
    decide
  · rw [writesAll_iff hfile rfl]
    decide

end Yfs.Client
