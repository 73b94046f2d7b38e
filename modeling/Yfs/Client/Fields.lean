import Yfs.Client.Codec

/-! The text of a directory as a row of fields: where a name can occur in it, and what the loops
make of a text from which something was cut. -/
namespace Yfs.Client

section
variable {name p q : Str} {b n : ℕ}

theorem findStr_spec {text : Str} (h : findStr name text = some b) : name <+: text.drop b := by
  induction text generalizing b with
  | nil =>
    rw [findStr] at h
    split_ifs at h with hnil
    rw [hnil]
    exact List.nil_prefix
  | cons c text ih =>
    rw [findStr] at h
    split_ifs at h with hpre
    · cases h
      exact List.isPrefixOf_iff_prefix.1 hpre
    · obtain ⟨k, hk, rfl⟩ := Option.map_eq_some_iff.1 h
      exact ih hk

theorem findStr_of_prefix {text : Str} {s : ℕ} (hs : s ≤ text.length) (h : name <+: text.drop s) :
    ∃ b ≤ s, findStr name text = some b := by
  induction text generalizing s with
  | nil =>
    rw [List.drop_nil, List.prefix_nil] at h
    exact ⟨0, Nat.zero_le s, if_pos h⟩
  | cons c text ih =>
    rw [findStr]
    split_ifs with hpre
    · exact ⟨0, Nat.zero_le s, rfl⟩
    · cases s with
      | zero => exact absurd (List.isPrefixOf_iff_prefix.2 h) hpre
      | succ s =>
        obtain ⟨b, hb, hfind⟩ := ih (Nat.le_of_succ_le_succ hs) h
        exact ⟨b + 1, Nat.succ_le_succ hb, by rw [hfind]; rfl⟩

theorem find_zero (text : Str) : find text name 0 = findStr name text := by
  rw [find, if_pos (Nat.zero_le _), List.drop_zero]
  exact Option.map_id'

private theorem prefix_of_semi (hs : semi ∉ name) (h : name <+: p ++ semi :: q) : name <+: p := by
  rcases List.prefix_or_prefix_of_prefix h (List.prefix_append p _) with hpre | ⟨z, rfl⟩
  · exact hpre
  · rw [List.prefix_append_right_inj] at h
    cases z with
    | nil => rw [List.append_nil]
    | cons c z =>
      obtain ⟨rfl, -⟩ := List.cons_prefix_cons.1 h
      exact absurd (List.mem_append_right p List.mem_cons_self) hs

theorem drop_sep_of_le (hn : n ≤ p.length) : (p ++ semi :: q).drop n = p.drop n ++ semi :: q :=
  List.drop_append_of_le_length hn

theorem drop_sep_of_lt (hn : p.length < n) : (p ++ semi :: q).drop n = q.drop (n - p.length - 1) := by
  have hpos : n - p.length = n - p.length - 1 + 1 := by omega
  rw [List.drop_append, List.drop_eq_nil_of_le hn.le, hpos, List.drop_succ_cons, List.nil_append,
    Nat.add_sub_cancel]

theorem prefix_drop_sep (hs : semi ∉ name) (h : name <+: (p ++ semi :: q).drop b) :
    (∃ u y, p = u ++ (name ++ y) ∧ b = u.length) ∨
      (p.length < b ∧ name <+: q.drop (b - p.length - 1)) := by
  rcases Nat.lt_or_ge p.length b with hlt | hle
  · rw [drop_sep_of_lt hlt] at h
    exact .inr ⟨hlt, h⟩
  · rw [drop_sep_of_le hle] at h
    obtain ⟨y, hy⟩ := prefix_of_semi hs h
    refine .inl ⟨p.take b, y, ?_, ?_⟩
    · rw [hy, List.take_append_drop]
    · rw [List.length_take, Nat.min_eq_left hle]

end

section
variable {pre post : List (Str × Str)} {e : Str × Str} {name : Str} {b : ℕ}

theorem startOf_cons (a : Str × Str) (pre : List (Str × Str)) :
    startOf (a :: pre) = (entry a).length + 1 + startOf pre := by
  unfold startOf
  rw [if_neg (List.cons_ne_nil a pre)]
  split_ifs with h
  · rw [h, render, Nat.add_zero]
  · rw [render_cons a h, List.length_append, List.length_cons]
    omega

theorem before_cons (a : Str × Str) (pre : List (Str × Str)) :
    before (a :: pre) = entry a ++ semi :: before pre := by
  unfold before
  rw [if_neg (List.cons_ne_nil a pre)]
  split_ifs with h
  · rw [h, render]
  · rw [render_cons a h, List.append_assoc]
    rfl

theorem after_cons (a : Str × Str) (post : List (Str × Str)) :
    after (a :: post) = semi :: (entry a ++ after post) := by
  have htail : render (a :: post) = entry a ++ after post := render_middle [] a post
  rw [← htail]
  exact if_neg (List.cons_ne_nil a post)

theorem before_concat (pre : List (Str × Str)) (a : Str × Str) :
    before (pre ++ [a]) = before pre ++ (entry a ++ [semi]) := by
  have hne : pre ++ [a] ≠ [] := by simp
  have hbefore : before (pre ++ [a]) = render (pre ++ [a]) ++ [semi] := if_neg hne
  rw [hbefore, render_middle, after_nil, List.append_nil, List.append_assoc]

theorem after_concat (post : List (Str × Str)) (a : Str × Str) :
    after (post ++ [a]) = after post ++ semi :: entry a := by
  induction post with
  | nil => rw [List.nil_append, after_cons, after_nil, List.append_nil, List.nil_append]
  | cons c post ih => rw [List.cons_append, after_cons, ih, after_cons, List.cons_append, List.append_assoc]

/-- A name in front of an entry lies in the name or in the number of an entry before it. -/
theorem occurrence_split (hs : semi ∉ name) (hb : b < startOf pre)
    (h : name <+: (render (pre ++ e :: post)).drop b) : ∃ front a mid, pre = front ++ a :: mid ∧
      ((∃ u y, a.1 = u ++ (name ++ y) ∧ b = startOf front + u.length) ∨
        ∃ u y, a.2 = u ++ (name ++ y) ∧ b = startOf front + (a.1.length + 1 + u.length)) := by
  induction pre generalizing b with
  | nil => exact absurd hb (Nat.not_lt_zero b)
  | cons a pre ih =>
    rw [startOf_cons, length_entry] at hb
    rw [List.cons_append, render_cons a (by simp), entry, List.append_assoc, List.cons_append] at h
    rcases prefix_drop_sep hs h with ⟨u, y, hname, rfl⟩ | ⟨hlt, h⟩
    · exact ⟨[], a, pre, rfl, .inl ⟨u, y, hname, by rw [startOf_nil, Nat.zero_add]⟩⟩
    rcases prefix_drop_sep hs h with ⟨u, y, hnum, hu⟩ | ⟨hlt', h⟩
    · exact ⟨[], a, pre, rfl, .inr ⟨u, y, hnum, by rw [startOf_nil]; omega⟩⟩
    obtain ⟨front, c, mid, rfl, hcase⟩ := ih (by omega) h
    refine ⟨a :: front, c, mid, rfl, ?_⟩
    rw [startOf_cons, length_entry]
    rcases hcase with ⟨u, y, hname, hpos⟩ | ⟨u, y, hnum, hpos⟩
    · exact .inl ⟨u, y, hname, by omega⟩
    · exact .inr ⟨u, y, hnum, by omega⟩

end

section
variable {g num : Str}

theorem entries_pair (hname : semi ∉ g) (hnum : semi ∉ num) (w : Str) :
    entries (g ++ semi :: (num ++ semi :: w)) = (g, num) :: entries w := by
  rw [entries, scan_name hname, scan_num hnum, List.nil_append, List.nil_append, entries]

theorem entries_one (hname : semi ∉ g) (hnum : semi ∉ num) (hne : num ≠ []) :
    entries (g ++ semi :: num) = [(g, num)] := by
  rw [entries, scan_name hname, scan_num_last hnum hne, List.nil_append, List.nil_append]

theorem entries_before {pre : List (Str × Str)} (h : ∀ a ∈ pre, Plain a) (w : Str) :
    entries (before pre ++ w) = pre ++ entries w := by
  induction pre with
  | nil => rfl
  | cons a pre ih =>
    have ha := h a List.mem_cons_self
    rw [before_cons, entry, List.append_assoc, List.append_assoc, List.cons_append, List.cons_append,
      entries_pair ha.1 ha.2.1, ih fun b hb => h b (List.mem_cons_of_mem a hb), List.cons_append]

theorem two_mul_length_scan (s : ReadState) (w : Str) : 2 * (scan s w).length ≤ w.count semi +
    match s with
    | .fileName _ => 1
    | .inodeNum _ _ => 2 := by
  induction w generalizing s with
  | nil => cases s <;> simp [scan]
  | cons c w ih =>
    cases s with
    | fileName name =>
      rw [scan]
      split_ifs with hc
      · have hrest := ih (.inodeNum name [])
        rw [hc, List.count_cons_self]
        dsimp only at hrest ⊢
        omega
      · have hrest := ih (.fileName (name ++ [c]))
        rw [List.count_cons_of_ne hc]
        exact hrest
    | inodeNum name num =>
      rw [scan]
      split_ifs with hc hlast
      · have hrest := ih (.fileName [])
        rw [hc, List.count_cons_self, List.length_cons]
        dsimp only at hrest ⊢
        omega
      · simp
      · have hrest := ih (.inodeNum name (num ++ [c]))
        rw [List.count_cons_of_ne hc]
        exact hrest

theorem two_mul_length_entries (w : Str) : 2 * (entries w).length ≤ w.count semi + 1 :=
  two_mul_length_scan (.fileName []) w

theorem count_after {l : List (Str × Str)} (h : ∀ a ∈ l, Plain a) : (after l).count semi = 2 * l.length := by
  induction l with
  | nil => rfl
  | cons a l ih =>
    rw [after_cons, List.count_cons_self, List.count_append, count_entry (h a List.mem_cons_self),
      ih fun b hb => h b (List.mem_cons_of_mem a hb), List.length_cons]
    omega

private theorem fst_of_scan {name num w : Str} {e : Str × Str} {l : List (Str × Str)}
    (h : scan (.inodeNum name num) w = e :: l) : e.1 = name := by
  induction w generalizing num with
  | nil => cases h
  | cons c w ih =>
    rw [scan] at h
    split_ifs at h with hc hlast
    · cases h
      rfl
    · cases h
      rfl
    · exact ih h

theorem prefix_of_scan {acc w : Str} {e : Str × Str} {l : List (Str × Str)}
    (h : scan (.fileName acc) w = e :: l) : e.1 <+: acc ++ w := by
  induction w generalizing acc with
  | nil => cases h
  | cons c w ih =>
    rw [scan] at h
    split_ifs at h with hc
    · rw [fst_of_scan h]
      exact List.prefix_append acc _
    · rw [List.append_cons]
      exact ih h

end

section
variable {s : Str}

theorem decimal_concat {c : UInt8} (h : ∀ d ∈ s ++ [c], isDigit d) :
    decimal (s ++ [c]) = 10 * decimal s + (c.toNat - 48) := by
  unfold decimal
  rw [List.takeWhile_eq_self_iff.2 h, List.takeWhile_eq_self_iff.2 fun d hd =>
    h d (List.mem_append_left _ hd), List.foldl_append, List.foldl_cons, List.foldl_nil]

theorem decimal_lt (h : ∀ c ∈ s, isDigit c) : decimal s < 10 ^ s.length := by
  induction s using List.reverseRecOn with
  | nil => exact Nat.one_pos
  | append_singleton s c ih =>
    have hc := h c (by simp)
    simp only [isDigit, decide_eq_true_eq] at hc
    have hlt := ih fun d hd => h d (List.mem_append_left _ hd)
    rw [decimal_concat h, List.length_append, List.length_singleton, Nat.pow_succ]
    omega

theorem toNat_n2i (h : ∀ c ∈ s, isDigit c) : (n2i s).toNat = min (decimal s) (2 ^ 64 - 1) := by
  cases s with
  | nil => rfl
  | cons c s =>
    have hc := h c List.mem_cons_self
    simp only [isDigit, decide_eq_true_eq] at hc
    have hdrop : (c :: s).dropWhile isSpace = c :: s := by
      apply List.dropWhile_cons_of_neg
      simp only [isSpace, decide_eq_true_eq]
      omega
    have hminus : c ≠ 45 := fun heq => absurd hc (by rw [heq]; decide)
    have hplus : c ≠ 43 := fun heq => absurd hc (by rw [heq]; decide)
    rw [n2i, extractInum, hdrop]
    simp only [if_neg hminus, if_neg hplus, Bool.false_eq_true, if_false]
    split_ifs with hbig
    · rw [min_eq_right (by omega)]
      rfl
    · rw [UInt64.toNat_ofNat', Nat.mod_eq_of_lt (by omega), min_eq_left (by omega)]

theorem length_filename_n2i_le (h : ∀ c ∈ s, isDigit c) : (filename (n2i s)).length ≤ max s.length 1 := by
  unfold filename
  split_ifs with hzero
  · exact le_max_right _ _
  · rw [List.length_map, List.length_reverse]
    apply le_max_of_le_left
    rw [Nat.digits_length_le_iff (by decide), toNat_n2i h]
    exact (min_le_left _ _).trans_lt (decimal_lt h)

theorem filename_eq_concat (inum : UInt64) :
    ∃ num, filename inum = num ++ [UInt8.ofNat (48 + inum.toNat % 10)] := by
  unfold filename
  split_ifs with hzero
  · rw [hzero]
    exact ⟨[], rfl⟩
  · rw [Nat.digits_def' (by decide) (Nat.pos_of_ne_zero hzero), List.reverse_cons, List.map_append]
    exact ⟨_, rfl⟩

/-- A number keeps its value with one more digit only if both are zero, or if it is the greatest. -/
theorem n2i_concat_iff (a e : UInt64) : n2i (filename a ++ [UInt8.ofNat (48 + e.toNat % 10)]) = a ↔
    a.toNat = 0 ∧ e.toNat % 10 = 0 ∨ a.toNat = 2 ^ 64 - 1 := by
  obtain ⟨num, hnum⟩ := filename_eq_concat e
  have hall : ∀ d ∈ filename a ++ [UInt8.ofNat (48 + e.toNat % 10)], isDigit d := by
    intro d hd
    rcases List.mem_append.1 hd with hd | hd
    · exact mem_filename hd
    · exact mem_filename (hnum ▸ List.mem_append_right num hd)
  have hlt := a.toNat_lt
  have hdigit : (UInt8.ofNat (48 + e.toNat % 10)).toNat = 48 + e.toNat % 10 := by
    rw [UInt8.toNat_ofNat', Nat.mod_eq_of_lt (by omega)]
  rw [← UInt64.toNat_inj, toNat_n2i hall, decimal_concat hall, decimal_filename, hdigit]
  omega

end

def Reads (w : Str) (l : List (Str × UInt64)) : Prop := (entries w).map readBack = l

section
variable {w g num : Str} {a : Str × UInt64} {pre post l : List (Str × UInt64)}

theorem reads_build (h : ∀ e ∈ l, semi ∉ e.1) : Reads (build l) l := by
  unfold Reads
  rw [build_eq_render, entries_render (plain_map_written h), map_readBack_written]

theorem after_written (h : l ≠ []) : after (l.map written) = semi :: build l := by
  rw [build_eq_render]
  exact if_neg fun hnil => h (List.map_eq_nil_iff.1 hnil)

theorem Reads.two_mul_length_le (h : Reads w l) : 2 * l.length ≤ w.count semi + 1 := by
  rw [← h, List.length_map]
  exact two_mul_length_entries w

theorem Reads.plain (h : Reads w l) : ∀ e ∈ l, semi ∉ e.1 := by
  intro e he
  rw [← h] at he
  obtain ⟨c, hc, rfl⟩ := List.mem_map.1 he
  exact semi_not_mem_scan List.not_mem_nil hc

theorem Reads.head (h : Reads w (a :: l)) (hne : a.1 ≠ []) : w.head? = a.1.head? := by
  obtain ⟨e, l', hl, rfl, -⟩ := List.map_eq_cons_iff.1 h
  obtain ⟨z, hz⟩ := prefix_of_scan hl
  rw [List.nil_append] at hz
  rw [← hz]
  exact List.head?_append_of_ne_nil _ hne

theorem reads_before (h : ∀ e ∈ pre, semi ∉ e.1) :
    Reads (before (pre.map written) ++ w) (pre ++ l) ↔ Reads w l := by
  unfold Reads
  rw [entries_before (plain_map_written h), List.map_append, map_readBack_written]
  exact List.append_right_inj pre

theorem reads_pair (hname : semi ∉ g) (hnum : semi ∉ num) :
    Reads (g ++ semi :: (num ++ semi :: w)) (a :: l) ↔ g = a.1 ∧ n2i num = a.2 ∧ Reads w l := by
  unfold Reads
  rw [entries_pair hname hnum, List.map_cons, List.cons.injEq, Prod.ext_iff, and_assoc]
  exact Iff.rfl

theorem reads_entry (hname : semi ∉ g) (hnum : semi ∉ num) (hpost : ∀ e ∈ post, semi ∉ e.1)
    (hne : num = [] → post ≠ []) :
    Reads (g ++ semi :: (num ++ after (post.map written))) (a :: l) ↔ g = a.1 ∧ n2i num = a.2 ∧ post = l := by
  cases post with
  | nil =>
    unfold Reads
    rw [List.map_nil, after_nil, List.append_nil, entries_one hname hnum fun h => hne h rfl,
      List.map_singleton, List.cons.injEq, Prod.ext_iff, and_assoc]
    exact Iff.rfl
  | cons e post =>
    rw [after_written (List.cons_ne_nil e post), reads_pair hname hnum]
    have hread := reads_build hpost
    unfold Reads at hread ⊢
    rw [hread]

end
end Yfs.Client
