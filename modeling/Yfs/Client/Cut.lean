import Yfs.Client.Fields

/-! What is left of the text of a directory when the name of an entry is found in front of it and
as many characters as the entry has are erased from there. -/
namespace Yfs.Client

/-- Names that are pairwise distinct and without the separator. -/
structure Clear (l : List (Str × UInt64)) : Prop where
  distinct : (l.map Prod.fst).Nodup
  plain : ∀ e ∈ l, semi ∉ e.1

/-- The names of a directory are not empty either. -/
structure Named (l : List (Str × UInt64)) : Prop extends Clear l where
  ne_nil : ∀ e ∈ l, e.1 ≠ []

section
variable {front mid pre post rest l : List (Str × UInt64)} {a d e f : Str × UInt64} {u y w : Str}

theorem Clear.of_append (h : Clear (pre ++ l)) : Clear l := by
  constructor
  · have hd := h.distinct
    rw [List.map_append] at hd
    exact hd.of_append_right
  · exact fun e he => h.plain e (List.mem_append_right pre he)

theorem Clear.tail (h : Clear (a :: l)) : Clear l := by
  rw [← List.singleton_append] at h
  exact h.of_append

theorem Clear.ne_of_mem (h : Clear (pre ++ e :: post)) (ha : a ∈ pre ++ post) : a.1 ≠ e.1 := by
  have hd := h.distinct
  rw [List.map_append, List.map_cons, List.nodup_middle, List.nodup_cons] at hd
  intro heq
  apply hd.1
  rw [← List.map_append, ← heq]
  exact List.mem_map_of_mem ha

theorem Clear.concat (h : Clear l) (hplain : semi ∉ a.1) (hne : ∀ b ∈ l, b.1 ≠ a.1) : Clear (l ++ [a]) := by
  constructor
  · rw [List.map_append, List.map_singleton, List.nodup_append]
    refine ⟨h.distinct, List.nodup_singleton _, fun b hb c hc => ?_⟩
    obtain ⟨d, hd, rfl⟩ := List.mem_map.1 hb
    rw [List.mem_singleton.1 hc]
    exact hne d hd
  · intro b hb
    rcases List.mem_append.1 hb with hb | hb
    · exact h.plain b hb
    · rwa [List.mem_singleton.1 hb]

theorem Clear.build_inj (h : Clear l) (hpre : Clear pre) (heq : build l = build pre) : l = pre := by
  rw [← reads_build h.plain, heq]
  exact reads_build hpre.plain

theorem Clear.mid_eq_nil (h : Clear (mid ++ e :: post)) (hd : mid ++ e :: post = d :: rest)
    (hrest : rest = mid ++ post) : mid = [] ∧ d = e ∧ rest = post := by
  cases mid with
  | nil =>
    cases hd
    exact ⟨rfl, rfl, rfl⟩
  | cons m mid =>
    have hmem : e ∈ m :: mid ++ post := by
      rw [← hrest, (List.cons.inj hd).2.symm]
      simp
    exact absurd rfl (h.ne_of_mem hmem)

theorem after_written_cons (d : Str × UInt64) (rest : List (Str × UInt64)) : after ((d :: rest).map written) =
    semi :: (d.1 ++ semi :: (filename d.2 ++ after (rest.map written))) := by
  rw [List.map_cons, after_cons, entry, List.append_assoc]
  rfl

private theorem reads_shifted (hf : semi ∉ f.1)
    (h : Reads (filename d.2 ++ after ((f :: rest).map written)) (d :: l)) :
    filename d.2 = d.1 ∧ n2i f.1 = d.2 ∧ Reads (filename f.2 ++ after (rest.map written)) l := by
  rw [after_written_cons] at h
  exact (reads_pair (semi_not_mem_filename d.2) hf).1 h

theorem Clear.shifted (h : Clear (mid ++ e :: post)) (hd : mid ++ e :: post = d :: rest)
    (hread : Reads (filename d.2 ++ after (rest.map written)) (mid ++ post)) :
    mid = [] ∧ d = e ∨ mid = [d] ∧ filename d.2 = d.1 ∧ n2i e.1 = d.2 := by
  cases mid with
  | nil =>
    cases hd
    exact .inl ⟨rfl, rfl⟩
  | cons m mid =>
    cases hd
    cases mid with
    | nil =>
      obtain ⟨hname, hnum, -⟩ := reads_shifted (h.tail.plain e (by simp)) hread
      exact .inr ⟨rfl, hname, hnum⟩
    | cons f mid =>
      obtain ⟨hname, hnum, hread⟩ := reads_shifted (h.tail.plain f (by simp)) hread
      obtain ⟨g, rest, hg⟩ : ∃ g rest, mid ++ e :: post = g :: rest :=
        List.exists_cons_of_ne_nil (by simp)
      have hnames : Clear (g :: rest) := hg ▸ h.tail.tail
      rw [List.append_eq, hg] at hread
      obtain ⟨hname', -, -⟩ := reads_shifted (hnames.plain g List.mem_cons_self) hread
      -- two entries with one name
      have heq : f.1 = d.1 := by rw [← hname, ← hnum, ← hname', n2i_filename, hname']
      have hnames : Clear ([] ++ d :: (f :: mid ++ e :: post)) := h
      exact absurd heq (hnames.ne_of_mem (by simp))

/-- So, if the name that is cut out is a number, the name behind the number is not longer, and what is made up
of digits and of its characters is read as a number of no greater length. -/
theorem Clear.shifted_num (h : Clear (mid ++ e :: post)) (hd : mid ++ e :: post = d :: rest)
    (hread : Reads (filename d.2 ++ after (rest.map written)) (mid ++ post)) (hne : e.1 ≠ [])
    (he : ∀ c ∈ e.1, isDigit c) (hval : n2i w = a.2) (hw : ∀ c ∈ w, isDigit c ∨ c ∈ d.1) :
    d.1.length ≤ e.1.length ∧ (filename a.2).length ≤ max w.length 1 := by
  have hnext : d.1.length ≤ e.1.length ∧ ∀ c ∈ d.1, isDigit c := by
    rcases h.shifted hd hread with ⟨-, rfl⟩ | ⟨-, hname, hnum⟩
    · exact ⟨le_rfl, he⟩
    · have hlen := length_filename_n2i_le he
      have hpos := List.length_pos_iff.2 hne
      rw [hnum, hname, max_eq_left hpos] at hlen
      exact ⟨hlen, fun c hc => mem_filename (hname ▸ hc)⟩
  rw [← hval]
  exact ⟨hnext.1, length_filename_n2i_le fun c hc => (hw c hc).elim id (hnext.2 c)⟩

theorem reads_drop_name (hu : semi ∉ u) (h : ∀ c ∈ d :: rest, semi ∉ c.1)
    (hlen : l.length = rest.length) (k : ℕ) :
    Reads (u ++ (d.1 ++ semi :: (filename d.2 ++ after (rest.map written))).drop k) (a :: l) ↔
      k ≤ d.1.length ∧ u ++ d.1.drop k = a.1 ∧ d.2 = a.2 ∧ rest = l := by
  have hd := h d List.mem_cons_self
  have hrest : ∀ c ∈ rest, semi ∉ c.1 := fun c hc => h c (List.mem_cons_of_mem d hc)
  rcases Nat.lt_or_ge d.1.length k with hlt | hle
  · rw [drop_sep_of_lt hlt]
    constructor
    · -- a `;` is missing
      intro hread
      have hcount := hread.two_mul_length_le
      have hdrop := (List.drop_sublist (k - d.1.length - 1)
        (filename d.2 ++ after (rest.map written))).count_le semi
      rw [List.count_append, List.count_eq_zero.2 (semi_not_mem_filename d.2),
        count_after (plain_map_written hrest), List.length_map] at hdrop
      rw [List.count_append, List.count_eq_zero.2 hu, List.length_cons] at hcount
      omega
    · intro hk
      omega
  · have hname : semi ∉ u ++ d.1.drop k :=
      List.not_mem_append hu fun hm => hd (List.mem_of_mem_drop hm)
    rw [drop_sep_of_le hle, ← List.append_assoc, reads_entry hname (semi_not_mem_filename d.2) hrest
      fun hnil => absurd hnil (filename_ne_nil d.2), n2i_filename]
    exact (and_iff_right hle).symm

theorem reads_drop_num {g : Str} (hg : semi ∉ g) (hu : semi ∉ u) (h : ∀ c ∈ rest, semi ∉ c.1)
    (hlen : l.length = rest.length) {k : ℕ} (hk : rest = [] → k ≤ (filename d.2).length)
    (hne : rest = [] → u ++ (filename d.2).drop k ≠ []) :
    Reads (g ++ semi :: (u ++ (filename d.2 ++ after (rest.map written)).drop k)) (a :: l) ↔
      k ≤ (filename d.2).length ∧ g = a.1 ∧ n2i (u ++ (filename d.2).drop k) = a.2 ∧ rest = l := by
  rcases Nat.lt_or_ge (filename d.2).length k with hlt | hle
  · constructor
    · -- a `;` is missing
      intro hread
      have hcount := hread.two_mul_length_le
      cases rest with
      | nil => exact absurd (hk rfl) (Nat.not_le.2 hlt)
      | cons f rest =>
        have hafter := count_after (plain_map_written h)
        rw [List.map_cons, after_cons, List.count_cons_self] at hafter
        rw [List.map_cons, after_cons, drop_sep_of_lt hlt, List.count_append, List.count_cons_self,
          List.count_eq_zero.2 hg, List.count_append, List.count_eq_zero.2 hu, List.length_cons] at hcount
        have hdrop := (List.drop_sublist (k - (filename d.2).length - 1)
          (entry (written f) ++ after (rest.map written))).count_le semi
        rw [List.length_cons, List.length_map] at hafter
        rw [List.length_cons] at hlen
        omega
    · intro hk
      omega
  · have hnum : semi ∉ u ++ (filename d.2).drop k :=
      List.not_mem_append hu fun hm => semi_not_mem_filename d.2 (List.mem_of_mem_drop hm)
    rw [List.drop_append_of_le_length hle, ← List.append_assoc, reads_entry hg hnum h fun hnil hr =>
      hne hr hnil]
    exact (and_iff_right hle).symm

theorem length_without (hd : mid ++ e :: post = d :: rest) : (mid ++ post).length = rest.length := by
  have hlen := congrArg List.length hd
  simp only [List.length_append, List.length_cons] at hlen ⊢
  omega

/-- The end of a number becomes a part of the name in front of it, and the next name is read as a number. -/
theorem Clear.not_reads_name_joined (h : Clear (mid ++ e :: post)) (hd : mid ++ e :: post = d :: rest)
    (hne : e.1 ≠ []) (hu : semi ∉ u) (ha : a.1 = u ++ (e.1 ++ y)) {k : ℕ} (hk : 1 < k + y.length)
    (hle : k ≤ (filename a.2).length) :
    ¬Reads (u ++ ((filename a.2).drop k ++
      semi :: (d.1 ++ semi :: (filename d.2 ++ after (rest.map written))))) (a :: (mid ++ post)) := by
  intro hread
  have hplain : ∀ c ∈ d :: rest, semi ∉ c.1 := hd ▸ h.plain
  have hsep : semi ∉ u ++ (filename a.2).drop k :=
    List.not_mem_append hu fun hm => semi_not_mem_filename a.2 (List.mem_of_mem_drop hm)
  rw [← List.append_assoc, reads_pair hsep (hplain d List.mem_cons_self)] at hread
  obtain ⟨hname, hnum, hread⟩ := hread
  have hpart := List.append_cancel_left (hname.trans ha)
  have hdigits : ∀ c ∈ e.1, isDigit c := fun c hc =>
    mem_filename (List.mem_of_mem_drop (hpart ▸ List.mem_append_left y hc))
  obtain ⟨hshort, hlong⟩ := h.shifted_num hd hread hne hdigits hnum fun c hc => .inr hc
  have hsame := congrArg List.length hpart
  rw [List.length_drop, List.length_append] at hsame
  have hpos := List.length_pos_iff.2 hne
  omega

/-- The end of the next name becomes a part of the number in front of it. -/
theorem Clear.not_reads_num_joined {g : Str} (h : Clear (mid ++ e :: post))
    (hd : mid ++ e :: post = d :: rest) (hne : e.1 ≠ []) (hg : semi ∉ g)
    (ha : filename a.2 = u ++ (e.1 ++ y)) {k : ℕ} (hk : 1 < k + y.length) (hle : k ≤ d.1.length) :
    ¬Reads (g ++ semi :: (u ++ (d.1.drop k ++ semi :: (filename d.2 ++ after (rest.map written)))))
      (a :: (mid ++ post)) := by
  intro hread
  have hplain : ∀ c ∈ d :: rest, semi ∉ c.1 := hd ▸ h.plain
  have hdigits : ∀ c ∈ u ++ (e.1 ++ y), isDigit c := fun c hc => mem_filename (ha ▸ hc)
  have hu : ∀ c ∈ u, isDigit c := fun c hc => hdigits c (List.mem_append_left _ hc)
  have he : ∀ c ∈ e.1, isDigit c := fun c hc =>
    hdigits c (List.mem_append_right _ (List.mem_append_left _ hc))
  have hsep : semi ∉ u ++ d.1.drop k :=
    List.not_mem_append (fun hm => absurd (hu _ hm) (by decide)) fun hm =>
      hplain d List.mem_cons_self (List.mem_of_mem_drop hm)
  rw [← List.append_assoc, reads_pair hg hsep] at hread
  obtain ⟨-, hnum, hread⟩ := hread
  obtain ⟨hshort, hlong⟩ := h.shifted_num hd hread hne he hnum fun c hc =>
    (List.mem_append.1 hc).imp (hu c) List.mem_of_mem_drop
  rw [ha] at hlong
  simp only [List.length_append, List.length_drop] at hlong
  have hpos := List.length_pos_iff.2 hne
  omega

/-- The name is found in the name of an entry before it: the cut is right only if that is the entry just
before, its name ends in the other and both have one number. -/
theorem Clear.reads_cut_name (h : Clear (a :: (mid ++ e :: post))) (hne : e.1 ≠ [])
    (ha : a.1 = u ++ (e.1 ++ y)) :
    Reads (u ++ (y ++ semi :: (filename a.2 ++ after ((mid ++ e :: post).map written))).drop
      ((filename e.2).length + 2)) (a :: (mid ++ post)) ↔ mid = [] ∧ y = [] ∧ a.2 = e.2 := by
  obtain ⟨d, rest, hd⟩ : ∃ d rest, mid ++ e :: post = d :: rest := List.exists_cons_of_ne_nil (by simp)
  have hplain : ∀ c ∈ d :: rest, semi ∉ c.1 := hd ▸ h.tail.plain
  have hname := h.plain a List.mem_cons_self
  rw [ha] at hname
  simp only [List.mem_append, not_or] at hname
  obtain ⟨hu, -, hy⟩ := hname
  have hnonempty := List.length_pos_iff.2 (filename_ne_nil e.2)
  rw [hd, after_written_cons]
  -- the cut ends in this name, in its number or behind that
  rcases Nat.lt_or_ge y.length ((filename e.2).length + 2) with hlt | hle
  · rw [drop_sep_of_lt hlt]
    rcases Nat.lt_or_ge (filename a.2).length ((filename e.2).length + 2 - y.length - 1) with hlt' | hle
    · rw [drop_sep_of_lt hlt', reads_drop_name hu hplain (length_without hd)]
      constructor
      · rintro ⟨-, hname, hnum, hrest⟩
        obtain ⟨rfl, rfl, -⟩ := h.tail.mid_eq_nil hd hrest
        have hsame := congrArg List.length (List.append_cancel_left (hname.trans ha))
        rw [List.length_drop, List.length_append] at hsame
        exact ⟨rfl, List.length_eq_zero_iff.1 (by omega), hnum.symm⟩
      · rintro ⟨rfl, rfl, hnum⟩
        cases hd
        have hk : (filename e.2).length + 2 - ([] : Str).length - 1 - (filename a.2).length - 1 = 0 := by
          rw [hnum, List.length_nil]
          omega
        rw [hk, List.drop_zero, ha, List.append_nil]
        exact ⟨Nat.zero_le _, rfl, hnum.symm, rfl⟩
    · rw [drop_sep_of_le hle]
      apply iff_of_false
      · exact h.tail.not_reads_name_joined hd hne hu ha (by omega) hle
      · rintro ⟨-, rfl, hnum⟩
        rw [hnum, List.length_nil] at hle
        omega
  · rw [drop_sep_of_le hle, ← List.append_assoc, reads_pair _ (semi_not_mem_filename a.2)]
    · apply iff_of_false
      · -- the name gets shorter
        intro hread
        have hshort := congrArg List.length (hread.1.trans ha)
        simp only [List.length_append, List.length_drop] at hshort
        have hpos := List.length_pos_iff.2 hne
        omega
      · rintro ⟨-, rfl, -⟩
        rw [List.length_nil] at hle
        omega
    · exact List.not_mem_append hu fun hm => hy (List.mem_of_mem_drop hm)

/-- The name is found in the number of an entry before it: the cut is right only if that is the entry just
before and the end of the other number makes up for what is missing. -/
theorem Clear.reads_cut_num (h : Clear (a :: (mid ++ e :: post))) (hne : e.1 ≠ [])
    (ha : filename a.2 = u ++ (e.1 ++ y)) :
    Reads (a.1 ++ semi :: (u ++ (y ++ after ((mid ++ e :: post).map written)).drop
      ((filename e.2).length + 2)))
      (a :: (mid ++ post)) ↔ mid = [] ∧ (e.1 ++ y).length ≤ (filename e.2).length ∧
        n2i (u ++ (filename e.2).drop ((filename e.2).length - (e.1 ++ y).length)) = a.2 := by
  obtain ⟨d, rest, hd⟩ : ∃ d rest, mid ++ e :: post = d :: rest := List.exists_cons_of_ne_nil (by simp)
  have hplain : ∀ c ∈ d :: rest, semi ∉ c.1 := hd ▸ h.tail.plain
  have hname := h.plain a List.mem_cons_self
  have hsep := semi_not_mem_filename a.2
  rw [ha] at hsep
  simp only [List.mem_append, not_or] at hsep
  obtain ⟨hu, -, hy⟩ := hsep
  have hpos := List.length_pos_iff.2 hne
  have hnonempty := List.length_pos_iff.2 (filename_ne_nil e.2)
  simp only [List.length_append]
  -- the cut ends in this number, in the next name or behind that
  rcases Nat.lt_or_ge y.length ((filename e.2).length + 2) with hlt | hle
  · rw [hd, after_written_cons, drop_sep_of_lt hlt]
    rcases Nat.lt_or_ge d.1.length ((filename e.2).length + 2 - y.length - 1) with hlt' | hle
    · -- if nothing stands behind the next entry, it is the one that is looked for
      have hlast : rest = [] → d = e := by
        rintro rfl
        have hmem : e ∈ [d] := hd ▸ List.mem_append_right mid List.mem_cons_self
        exact (List.mem_singleton.1 hmem).symm
      rw [drop_sep_of_lt hlt', reads_drop_num hname hu (fun c hc => hplain c (List.mem_cons_of_mem d hc))
        (length_without hd)]
      · have hk : (filename e.2).length + 2 - y.length - 1 - e.1.length - 1 =
            (filename e.2).length - (e.1.length + y.length) := by omega
        constructor
        · rintro ⟨hle, -, hnum, hrest⟩
          obtain ⟨rfl, rfl, -⟩ := h.tail.mid_eq_nil hd hrest
          rw [hk] at hnum
          exact ⟨rfl, by omega, hnum⟩
        · rintro ⟨rfl, hle, hnum⟩
          cases hd
          rw [hk]
          exact ⟨Nat.sub_le _ _, rfl, hnum, rfl⟩
      · intro hnil
        rw [hlast hnil]
        omega
      · intro hnil hempty
        have hzero := congrArg List.length hempty
        rw [hlast hnil] at hlt' hzero
        rw [List.length_append, List.length_drop, List.length_nil] at hzero
        omega
    · rw [drop_sep_of_le hle]
      apply iff_of_false
      · exact h.tail.not_reads_num_joined hd hne hname ha (by omega) hle
      · rintro ⟨rfl, hshort, -⟩
        cases hd
        omega
  · rw [List.drop_append_of_le_length hle, ← List.append_assoc, hd, reads_entry hname _ hplain]
    · apply iff_of_false
      · -- no entry is missing
        intro hread
        have hmore := congrArg List.length hread.2.2
        rw [List.length_cons, length_without hd] at hmore
        omega
      · omega
    · exact fun _ => List.cons_ne_nil d rest
    · exact List.not_mem_append hu fun hm => hy (List.mem_of_mem_drop hm)

/-- The name of an entry, found at `b`, leads to the right cut: the entry itself is found; or the one just
before it has a name that ends in the other and the same number; or its number holds the name, and the end
of the number behind makes up for what is missing. -/
def CutsRight (pre : List (Str × UInt64)) (e : Str × UInt64) (b : ℕ) : Prop :=
  b = startOf (pre.map written) ∨ ∃ front a, pre = front ++ [a] ∧
    ((∃ u, a.1 = u ++ e.1 ∧ a.2 = e.2 ∧ b = startOf (front.map written) + u.length) ∨
      ∃ u y, filename a.2 = u ++ (e.1 ++ y) ∧ b = startOf (front.map written) + (a.1.length + 1 + u.length) ∧
        (e.1 ++ y).length ≤ (filename e.2).length ∧
        n2i (u ++ (filename e.2).drop ((filename e.2).length - (e.1 ++ y).length)) = a.2)

theorem erase_drop (p name q : Str) (n : ℕ) :
    erase (p ++ (name ++ q)) p.length (name.length + n) = some (p ++ q.drop n) := by
  rw [erase, if_pos (by simp), List.take_left, ← List.drop_drop, List.drop_left, ← List.drop_drop,
    List.drop_left]

theorem build_middle (front : List (Str × UInt64)) (a : Str × UInt64) (l : List (Str × UInt64)) :
    build (front ++ a :: l) =
      before (front.map written) ++ (a.1 ++ semi :: (filename a.2 ++ after (l.map written))) := by
  rw [build_eq_render, List.map_append, List.map_cons, render_middle, entry, List.append_assoc]
  rfl

theorem build_name (front l : List (Str × UInt64)) (ha : a.1 = u ++ w) : build (front ++ a :: l) =
    (before (front.map written) ++ u) ++ (w ++ semi :: (filename a.2 ++ after (l.map written))) := by
  rw [build_middle, ha]
  simp only [List.append_assoc]

theorem length_name (front : List (Str × UInt64)) (u : Str) :
    (before (front.map written) ++ u).length = startOf (front.map written) + u.length := by
  rw [List.length_append, length_before]

theorem build_num (front l : List (Str × UInt64)) (ha : filename a.2 = u ++ w) : build (front ++ a :: l) =
    (before (front.map written) ++ (a.1 ++ semi :: u)) ++ (w ++ after (l.map written)) := by
  rw [build_middle, ha]
  simp only [List.append_assoc, List.cons_append]

theorem length_num (front : List (Str × UInt64)) (name u : Str) :
    (before (front.map written) ++ (name ++ semi :: u)).length =
      startOf (front.map written) + (name.length + 1 + u.length) := by
  rw [List.length_append, length_before, List.length_append, List.length_cons]
  omega

theorem Clear.reads_erase_name (h : Clear (front ++ a :: (mid ++ e :: post))) (hne : e.1 ≠ [])
    (ha : a.1 = u ++ (e.1 ++ y))
    (hw : erase (build (front ++ a :: (mid ++ e :: post))) (startOf (front.map written) + u.length)
      (e.1.length + ((filename e.2).length + 2)) = some w) :
    Reads w (front ++ a :: (mid ++ post)) ↔ mid = [] ∧ y = [] ∧ a.2 = e.2 := by
  rw [build_name front _ ha, ← length_name, List.append_assoc e.1, erase_drop] at hw
  rw [← Option.some.inj hw, List.append_assoc, reads_before fun c hc => h.plain c (List.mem_append_left _ hc),
    h.of_append.reads_cut_name hne ha]

theorem Clear.reads_erase_num (h : Clear (front ++ a :: (mid ++ e :: post))) (hne : e.1 ≠ [])
    (ha : filename a.2 = u ++ (e.1 ++ y))
    (hw : erase (build (front ++ a :: (mid ++ e :: post)))
      (startOf (front.map written) + (a.1.length + 1 + u.length))
      (e.1.length + ((filename e.2).length + 2)) = some w) :
    Reads w (front ++ a :: (mid ++ post)) ↔ mid = [] ∧ (e.1 ++ y).length ≤ (filename e.2).length ∧
      n2i (u ++ (filename e.2).drop ((filename e.2).length - (e.1 ++ y).length)) = a.2 := by
  rw [build_num front _ ha, ← length_num, List.append_assoc e.1, erase_drop] at hw
  rw [← Option.some.inj hw, List.append_assoc, reads_before fun c hc => h.plain c (List.mem_append_left _ hc),
    List.append_assoc, List.cons_append, h.of_append.reads_cut_num hne ha]

theorem Named.reads_erase_iff (h : Named (pre ++ e :: post)) {b : ℕ} (hb : b < startOf (pre.map written))
    (hfind : e.1 <+: (build (pre ++ e :: post)).drop b)
    (hw : erase (build (pre ++ e :: post)) b (e.1.length + ((filename e.2).length + 2)) = some w) :
    Reads w (pre ++ post) ↔ CutsRight pre e b := by
  have hne := h.ne_nil e (by simp)
  replace h := h.toClear
  constructor
  · intro hread
    rw [build_eq_render, List.map_append, List.map_cons] at hfind
    obtain ⟨front', a', mid', hpre, hcase⟩ := occurrence_split (h.plain e (by simp)) hb hfind
    obtain ⟨front, l, rfl, rfl, hl⟩ := List.map_eq_append_iff.1 hpre
    obtain ⟨a, mid, rfl, rfl, rfl⟩ := List.map_eq_cons_iff.1 hl
    rw [List.append_assoc, List.cons_append] at h hw hread
    rcases hcase with ⟨u, y, ha, rfl⟩ | ⟨u, y, ha, rfl⟩
    · obtain ⟨rfl, rfl, hnum⟩ := (h.reads_erase_name hne ha hw).1 hread
      rw [List.append_nil] at ha
      exact .inr ⟨front, a, rfl, .inl ⟨u, ha, hnum, rfl⟩⟩
    · obtain ⟨rfl, hle, hnum⟩ := (h.reads_erase_num hne ha hw).1 hread
      exact .inr ⟨front, a, rfl, .inr ⟨u, y, ha, rfl, hle, hnum⟩⟩
  · rintro (hown | ⟨front, a, rfl, ⟨u, ha, hnum, rfl⟩ | ⟨u, y, ha, rfl, hle, hnum⟩⟩)
    · exact absurd hown hb.ne
    · rw [List.append_assoc] at h hw ⊢
      rw [← List.append_nil e.1] at ha
      have hnames : Clear (front ++ a :: ([] ++ e :: post)) := h
      exact (hnames.reads_erase_name hne ha hw).2 ⟨rfl, rfl, hnum⟩
    · rw [List.append_assoc] at h hw ⊢
      have hnames : Clear (front ++ a :: ([] ++ e :: post)) := h
      exact (hnames.reads_erase_num hne ha hw).2 ⟨rfl, hle, hnum⟩

/-- A text that starts with a zero byte is taken for an empty one. -/
theorem Named.reads_trim_iff (h : Named l) (hw : l = [] → w = []) :
    Reads (if w.head? = some 0 then [] else w) l ↔ (build l).head? ≠ some 0 ∧ Reads w l := by
  cases l with
  | nil =>
    rw [hw rfl]
    exact (and_iff_right (by decide)).symm
  | cons a l =>
    have hne := h.ne_nil a List.mem_cons_self
    have hhead := (reads_build h.plain).head hne
    split_ifs with hzero
    · refine iff_of_false (fun hread => ?_) fun ⟨hbuild, hread⟩ => ?_
      · cases hread
      · rw [hhead, ← hread.head hne] at hbuild
        exact hbuild hzero
    · refine ⟨fun hread => ⟨?_, hread⟩, And.right⟩
      rwa [hhead, ← hread.head hne]

theorem Named.remove (h : Named (pre ++ e :: post)) : Named (pre ++ post) := by
  have hsub : (pre ++ post).Sublist (pre ++ e :: post) := (List.sublist_cons_self e post).append_left pre
  refine ⟨⟨?_, ?_⟩, ?_⟩
  · exact h.distinct.sublist (hsub.map Prod.fst)
  · exact fun a ha => h.plain a (hsub.subset ha)
  · exact fun a ha => h.ne_nil a (hsub.subset ha)

theorem find_own (pre : List (Str × UInt64)) (e : Str × UInt64) (post : List (Str × UInt64)) :
    ∃ b ≤ startOf (pre.map written), find (build (pre ++ e :: post)) e.1 0 = some b ∧
      e.1 <+: (build (pre ++ e :: post)).drop b := by
  have hown : e.1 <+: (build (pre ++ e :: post)).drop (startOf (pre.map written)) := by
    rw [build_middle, ← length_before, List.drop_left]
    exact List.prefix_append _ _
  have hle : startOf (pre.map written) ≤ (build (pre ++ e :: post)).length := by
    rw [build_middle, ← length_before, List.length_append]
    exact Nat.le_add_right _ _
  obtain ⟨b, hb, hfind⟩ := findStr_of_prefix hle hown
  exact ⟨b, hb, (find_zero _).trans hfind, findStr_spec hfind⟩

theorem Named.unlinkText_iff (h : Named (pre ++ e :: post))
    (hlen : (build (pre ++ e :: post)).length < 2 ^ 64) :
    ∃ b w, find (build (pre ++ e :: post)) e.1 0 = some b ∧
      unlinkText (build (pre ++ e :: post)) e.1 e.2 = some w ∧
      (Reads w (pre ++ post) ↔ (build (pre ++ post)).head? ≠ some 0 ∧ CutsRight pre e b) := by
  have hsize : (build (pre ++ e :: post)).length = startOf (pre.map written) + (e.1.length + 1 +
      (filename e.2).length + (after (post.map written)).length) := by
    rw [build_middle]
    simp only [List.length_append, List.length_cons, length_before]
    omega
  obtain ⟨b, hle, hfind, hpre⟩ := find_own pre e post
  refine ⟨b, ?_⟩
  rcases hle.eq_or_lt with rfl | hlt
  · have hbuild : build (pre ++ e :: post) = render (pre.map written ++ written e :: post.map written) := by
      rw [build_eq_render, List.map_append, List.map_cons]
    have hnum : filename e.2 = (written e).2 := rfl
    have hcut := unlinkText_found (hbuild ▸ hfind) hnum (.inr (hbuild ▸ hlen))
    rw [← hbuild, ← List.map_append, ← build_eq_render] at hcut
    refine ⟨_, hfind, hcut, ?_⟩
    rw [h.remove.reads_trim_iff (by rintro hnil; rw [hnil]; rfl)]
    exact and_congr_right' (iff_of_true (reads_build h.remove.plain) (.inl rfl))
  · obtain ⟨w, hw⟩ : ∃ w, erase (build (pre ++ e :: post)) b
      (e.1.length + ((filename e.2).length + 2)) = some w := ⟨_, if_pos (by omega)⟩
    have hmod := Nat.mod_le (b + (e.1.length + 1 + (filename e.2).length)) (2 ^ 64)
    have hcut : unlinkText (build (pre ++ e :: post)) e.1 e.2 =
        some (if w.head? = some 0 then [] else w) := by
      simp only [unlinkText, hfind, Option.getD_some]
      rw [if_neg (by omega), if_neg (by omega), Nat.add_assoc _ _ 1, Nat.add_assoc _ 1, Nat.add_comm 1, hw,
        Option.map_some]
    refine ⟨_, hfind, hcut, ?_⟩
    rw [h.remove.reads_trim_iff, h.reads_erase_iff hlt hpre hw]
    intro hnil
    rw [(List.append_eq_nil_iff.1 hnil).1] at hlt
    exact absurd hlt (Nat.not_lt_zero b)

end
end Yfs.Client
