import Yfs.Client.Cut

/-! What `Rename` leaves of the text of a directory, also when the moved entry is added to the same
text again. -/
namespace Yfs.Client

def enterAll (dirList : Str) (new : List (Str × UInt64)) : Str :=
  new.foldl (fun dirList e => addEntry dirList (e.1, filename e.2)) dirList

section
variable {front mid pre post rest new l : List (Str × UInt64)} {a d e f : Str × UInt64} {u y w x : Str}

theorem enterAll_build (l new : List (Str × UInt64)) : enterAll (build l) new = build (l ++ new) :=
  (List.foldl_append ..).symm

theorem enterAll_after (h : x ++ after (post.map written) ≠ []) :
    enterAll (x ++ after (post.map written)) new = x ++ after ((post ++ new).map written) := by
  induction new generalizing post with
  | nil => rw [List.append_nil, enterAll, List.foldl_nil]
  | cons e new ih =>
    have hadd : addEntry (x ++ after (post.map written)) (e.1, filename e.2) =
        x ++ after ((post ++ [e]).map written) := by
      rw [addEntry, if_neg h, List.map_append, List.map_singleton, after_concat, List.append_assoc]
      rfl
    have hne : x ++ after ((post ++ [e]).map written) ≠ [] := by
      rw [List.map_append, List.map_singleton, after_concat]
      simp
    rw [enterAll, List.foldl_cons, ← enterAll, hadd, ih hne, List.append_assoc, List.singleton_append]

theorem enterAll_semi (h : l ≠ []) (x : Str) :
    enterAll (x ++ semi :: build l) new = x ++ after ((l ++ new).map written) := by
  have hafter := after_written h
  rw [← hafter, enterAll_after (by rw [hafter]; simp)]

theorem reads_rename_first {name : Str} (hplain : ∀ b ∈ a :: (l ++ new), semi ∉ b.1) (hl : l ≠ [])
    (hfind : find (build (a :: l)) name 0 = some 0) (hlen : (build (a :: l)).length < 2 ^ 32 - 1) :
    ∃ r, renameText (build (a :: l)) name = some r ∧ ∀ d k, d.1 ≠ [] → ¬Reads (enterAll r new) (d :: k) := by
  have htext : build (a :: l) = a.1 ++ semi :: (filename a.2 ++ semi :: build l) := by
    rw [← after_written hl]
    exact build_middle [] a l
  have ha := hplain a List.mem_cons_self
  refine ⟨_, renameText_cut_start htext hfind ha (semi_not_mem_filename a.2) hlen, fun d k hne hread => ?_⟩
  rw [← List.nil_append (semi :: build l), enterAll_semi hl] at hread
  obtain ⟨f, rest, rfl⟩ := List.exists_cons_of_ne_nil hl
  rw [List.cons_append, after_written_cons, reads_pair List.not_mem_nil (hplain f (by simp))] at hread
  exact hne hread.1.symm

/-- The name is found within a name or at its start: the character before it goes, and of this entry the last
digit is left. -/
theorem renameText_name {name p : Str} {z : UInt8} (ha : a.1 = u ++ w) (hw : semi ∉ w) (hl : l ≠ [])
    (hp : before (front.map written) ++ u = p ++ [z])
    (hfind : find (build (front ++ a :: l)) name 0 = some (startOf (front.map written) + u.length))
    (hlen : (build (front ++ a :: l)).length < 2 ^ 32 - 1) :
    ∃ r, renameText (build (front ++ a :: l)) name = some r ∧ ∀ new, enterAll r new =
      (p ++ [UInt8.ofNat (48 + a.2.toNat % 10)]) ++ after ((l ++ new).map written) := by
  obtain ⟨num, hnum⟩ := filename_eq_concat a.2
  have hq := hnum ▸ semi_not_mem_filename a.2
  have htext := build_name front l ha
  rw [hp, hnum, after_written hl] at htext
  rw [← length_name, hp] at hfind
  refine ⟨_, renameText_cut htext hfind hw hq hlen, fun new => ?_⟩
  rw [List.append_cons, enterAll_semi hl]

/-- The name is found within a number: the character before it goes, and of the next name the last one is
left. -/
theorem renameText_num {name p q : Str} {z c : UInt8} (ha : filename a.2 = u ++ w) (hd : d.1 = q ++ [c])
    (hplain : semi ∉ d.1) (hp : before (front.map written) ++ (a.1 ++ semi :: u) = p ++ [z])
    (hfind : find (build (front ++ a :: d :: rest)) name 0 =
      some (startOf (front.map written) + (a.1.length + 1 + u.length)))
    (hlen : (build (front ++ a :: d :: rest)).length < 2 ^ 32 - 1) :
    ∃ r, renameText (build (front ++ a :: d :: rest)) name = some r ∧ ∀ new, enterAll r new =
      (p ++ [c]) ++ semi :: (filename d.2 ++ after ((rest ++ new).map written)) := by
  have hw : semi ∉ w := fun hm => semi_not_mem_filename a.2 (ha ▸ List.mem_append_right u hm)
  have htext := build_num front (d :: rest) ha
  rw [hp, after_written_cons, hd] at htext
  rw [← length_num, hp] at hfind
  refine ⟨_, renameText_cut htext hfind hw (hd ▸ hplain) hlen, fun new => ?_⟩
  have hne : (p ++ [c]) ++ semi :: filename d.2 ++ after (rest.map written) ≠ [] := by simp
  have hextend : enterAll _ new = _ := enterAll_after hne
  rw [List.append_assoc, List.cons_append] at hextend
  rw [List.append_cons, hextend, List.append_assoc, List.cons_append]

theorem semi_not_mem_lastDigit (inum : UInt64) : semi ∉ [UInt8.ofNat (48 + inum.toNat % 10)] := by
  obtain ⟨num, hnum⟩ := filename_eq_concat inum
  exact fun hm => semi_not_mem_filename inum (hnum ▸ List.mem_append_right num hm)

theorem reads_rename_behind {name : Str} (hplain : ∀ b ∈ front ++ f :: a :: (l ++ new), semi ∉ b.1)
    (hl : l ≠ [])
    (hfind : find (build (front ++ f :: a :: l)) name 0 = some (startOf ((front ++ [f]).map written)))
    (hlen : (build (front ++ f :: a :: l)).length < 2 ^ 32 - 1) :
    ∃ r, renameText (build (front ++ f :: a :: l)) name = some r ∧
      ∀ k, Reads (enterAll r new) (front ++ f :: k) ↔
      n2i (filename f.2 ++ [UInt8.ofNat (48 + a.2.toNat % 10)]) = f.2 ∧ l ++ new = k := by
  have hbefore : before ((front ++ [f]).map written) ++ [] =
      (before (front.map written) ++ (f.1 ++ semi :: filename f.2)) ++ [semi] := by
    rw [List.append_nil, List.map_append, List.map_singleton, before_concat, List.append_assoc]
    rfl
  have hsplit : front ++ f :: a :: l = (front ++ [f]) ++ a :: l := by
    rw [List.append_assoc, List.singleton_append]
  rw [hsplit] at hfind hlen ⊢
  obtain ⟨r, hr, hextend⟩ := renameText_name (u := []) rfl (hplain a (by simp)) hl hbefore hfind hlen
  refine ⟨r, hr, fun k => ?_⟩
  have hdigits : semi ∉ filename f.2 ++ [UInt8.ofNat (48 + a.2.toNat % 10)] :=
    List.not_mem_append (semi_not_mem_filename f.2) (semi_not_mem_lastDigit a.2)
  have hrest : ∀ b ∈ l ++ new, semi ∉ b.1 := fun b hb =>
    hplain b (List.mem_append_right _ (List.mem_cons_of_mem _ (List.mem_cons_of_mem _ hb)))
  rw [hextend, List.append_assoc, List.append_assoc, List.append_assoc, List.cons_append,
    ← List.append_assoc (filename f.2), reads_before fun b hb => hplain b (List.mem_append_left _ hb),
    reads_entry (hplain f (by simp)) hdigits hrest (by simp), and_iff_right rfl]

/-- The name is found in the name of an entry before it: that name gets shorter, or the other entry is cut
out. -/
theorem Clear.not_reads_rename_name (h : Clear (front ++ a :: (mid ++ e :: (post ++ new)))) (hne : e.1 ≠ [])
    (ha : a.1 = u ++ (e.1 ++ y))
    (hfind : find (build (front ++ a :: (mid ++ e :: post))) e.1 0 =
      some (startOf (front.map written) + u.length))
    (hlen : (build (front ++ a :: (mid ++ e :: post))).length < 2 ^ 32 - 1) :
    ∃ r, renameText (build (front ++ a :: (mid ++ e :: post))) e.1 = some r ∧
      ¬Reads (enterAll r new) (front ++ a :: (mid ++ (post ++ new))) := by
  have hcons : (mid ++ e :: post) ++ new = mid ++ e :: (post ++ new) := by
    rw [List.append_assoc, List.cons_append]
  have hbehind : mid ++ e :: post ≠ [] := by simp
  rcases List.eq_nil_or_concat' u with rfl | ⟨u, x, rfl⟩
  · rw [List.length_nil, Nat.add_zero] at hfind
    rcases List.eq_nil_or_concat' front with rfl | ⟨front, f, rfl⟩
    · have hplain : ∀ b ∈ a :: ((mid ++ e :: post) ++ new), semi ∉ b.1 := hcons ▸ h.plain
      obtain ⟨r, hr, hnot⟩ := reads_rename_first hplain hbehind hfind hlen
      refine ⟨r, hr, hnot a _ fun hempty => hne ?_⟩
      rw [ha, List.nil_append] at hempty
      exact (List.append_eq_nil_iff.1 hempty).1
    · rw [List.append_assoc, List.singleton_append] at h hfind hlen ⊢
      have hplain : ∀ b ∈ front ++ f :: a :: ((mid ++ e :: post) ++ new), semi ∉ b.1 := hcons ▸ h.plain
      obtain ⟨r, hr, hread⟩ := reads_rename_behind hplain hbehind hfind hlen
      refine ⟨r, hr, fun hr => ?_⟩
      rw [List.append_assoc, List.singleton_append, hread, hcons] at hr
      have hmem : e ∈ (a :: mid) ++ (post ++ new) := by
        rw [List.cons_append, ← hr.2]
        simp
      have hnames : Clear ((a :: mid) ++ e :: (post ++ new)) := h.of_append.tail
      exact hnames.ne_of_mem hmem rfl
  · -- only a digit is left of the name from there on
    have hplain := h.of_append.plain a List.mem_cons_self
    rw [ha, List.mem_append, not_or] at hplain
    obtain ⟨r, hr, hextend⟩ := renameText_name ha hplain.2 hbehind (List.append_assoc ..).symm hfind hlen
    refine ⟨r, hr, fun hread => ?_⟩
    have hu : semi ∉ u ++ [UInt8.ofNat (48 + a.2.toNat % 10)] :=
      List.not_mem_append (fun hm => hplain.1 (List.mem_append_left _ hm)) (semi_not_mem_lastDigit a.2)
    obtain ⟨d, rest, hd⟩ : ∃ d rest, mid ++ e :: (post ++ new) = d :: rest :=
      List.exists_cons_of_ne_nil (by simp)
    have hnext : ∀ b ∈ d :: rest, semi ∉ b.1 := hd ▸ h.of_append.tail.plain
    rw [hextend, hcons, hd, after_written_cons, List.append_assoc, List.append_assoc,
      reads_before fun b hb => h.plain b (List.mem_append_left _ hb), ← List.append_assoc,
      reads_pair hu (hnext d List.mem_cons_self)] at hread
    have hshort := congrArg List.length (hread.1.trans ha)
    simp only [List.length_append, List.length_singleton] at hshort
    have hpos := List.length_pos_iff.2 hne
    omega

/-- The name is found in the number of an entry before it: the number gets shorter, or its name longer. -/
theorem Clear.not_reads_rename_num (h : Clear (front ++ a :: (mid ++ e :: (post ++ new)))) (hne : e.1 ≠ [])
    (hmid : ∀ m ∈ mid, m.1 ≠ []) (ha : filename a.2 = u ++ (e.1 ++ y))
    (hfind : find (build (front ++ a :: (mid ++ e :: post))) e.1 0 =
      some (startOf (front.map written) + (a.1.length + 1 + u.length)))
    (hlen : (build (front ++ a :: (mid ++ e :: post))).length < 2 ^ 32 - 1) :
    ∃ r, renameText (build (front ++ a :: (mid ++ e :: post))) e.1 = some r ∧
      ¬Reads (enterAll r new) (front ++ a :: (mid ++ (post ++ new))) := by
  obtain ⟨d, rest, hd⟩ : ∃ d rest, mid ++ e :: post = d :: rest := List.exists_cons_of_ne_nil (by simp)
  have hd' : mid ++ e :: (post ++ new) = d :: (rest ++ new) := by
    rw [← List.cons_append, ← List.append_assoc, hd, List.cons_append]
  have hbehind : ∀ b ∈ d :: (rest ++ new), semi ∉ b.1 := hd' ▸ h.of_append.tail.plain
  have hfront : ∀ b ∈ front, semi ∉ b.1 := fun b hb => h.plain b (List.mem_append_left _ hb)
  have hname := h.of_append.plain a List.mem_cons_self
  have hdne : d.1 ≠ [] := by
    cases mid with
    | nil =>
      cases hd
      exact hne
    | cons m mid =>
      cases hd
      exact hmid d List.mem_cons_self
  obtain ⟨q, c, hq⟩ : ∃ q c, d.1 = q ++ [c] := ⟨_, _, (List.dropLast_concat_getLast hdne).symm⟩
  have hnext := hbehind d List.mem_cons_self
  have hc : semi ∉ [c] := fun hm => hnext (hq ▸ List.mem_append_right q hm)
  rw [hd] at hfind hlen ⊢
  rcases List.eq_nil_or_concat' u with rfl | ⟨u, z, rfl⟩
  · -- the `;` in front of the number is erased
    obtain ⟨r, hr, hextend⟩ := renameText_num ha hq hnext (List.append_assoc ..).symm hfind hlen
    refine ⟨r, hr, fun hread => ?_⟩
    rw [hextend, List.append_assoc, List.append_assoc, reads_before hfront, ← List.append_assoc,
      reads_entry (List.not_mem_append hname hc) (semi_not_mem_filename d.2)
        (fun b hb => hbehind b (List.mem_cons_of_mem d hb)) fun hnil =>
        absurd hnil (filename_ne_nil d.2)] at hread
    simpa using hread.1
  · -- the number ends in the last character of the next name
    have hbefore : before (front.map written) ++ (a.1 ++ semi :: (u ++ [z])) =
        (before (front.map written) ++ (a.1 ++ semi :: u)) ++ [z] := by
      simp only [List.append_assoc, List.cons_append]
    obtain ⟨r, hr, hextend⟩ := renameText_num ha hq hnext hbefore hfind hlen
    refine ⟨r, hr, fun hread => ?_⟩
    have hdigits : ∀ b ∈ (u ++ [z]) ++ (e.1 ++ y), isDigit b := fun b hb => mem_filename (ha ▸ hb)
    have hu : ∀ b ∈ u, isDigit b := fun b hb => hdigits b (List.mem_append_left _ (List.mem_append_left _ hb))
    have hnum : semi ∉ u ++ [c] := List.not_mem_append (fun hm => absurd (hu _ hm) (by decide)) hc
    rw [hextend, List.append_assoc, List.append_assoc, reads_before hfront, List.append_assoc,
      List.cons_append, ← List.append_assoc u, reads_pair hname hnum] at hread
    obtain ⟨-, hval, hread⟩ := hread
    have hshort := (h.of_append.tail.shifted_num hd' hread hne
      (fun b hb => hdigits b (List.mem_append_right _ (List.mem_append_left _ hb))) hval fun b hb =>
        (List.mem_append.1 hb).imp (hu b) fun hb => hq ▸ List.mem_append_right q hb).2
    have hpos := List.length_pos_iff.2 hne
    rw [ha] at hshort
    simp only [List.length_append, List.length_singleton] at hshort
    omega

/-- Nothing stands behind the entry, or the number before it takes its last digit without a change. -/
def KeepsBefore (pre : List (Str × UInt64)) (e : Str × UInt64) (post : List (Str × UInt64)) : Prop :=
  post = [] ∨ ∃ front a, pre = front ++ [a] ∧
    (a.2.toNat = 0 ∧ e.2.toNat % 10 = 0 ∨ a.2.toNat = 2 ^ 64 - 1)

private theorem keepsBefore_concat (hpost : post ≠ []) : KeepsBefore (front ++ [a]) e post ↔
    a.2.toNat = 0 ∧ e.2.toNat % 10 = 0 ∨ a.2.toNat = 2 ^ 64 - 1 := by
  constructor
  · rintro (hempty | ⟨front', a', hpre, hval⟩)
    · exact absurd hempty hpost
    · obtain ⟨-, ha⟩ := List.append_inj' hpre rfl
      rwa [List.singleton_inj.1 ha]
  · exact fun hval => .inr ⟨front, a, rfl, hval⟩

theorem Named.reads_rename_own (h : Named (pre ++ e :: post)) (hnew : Clear (pre ++ e :: (post ++ new)))
    (hfind : find (build (pre ++ e :: post)) e.1 0 = some (startOf (pre.map written)))
    (hlen : (build (pre ++ e :: post)).length < 2 ^ 32 - 1) :
    ∃ r, renameText (build (pre ++ e :: post)) e.1 = some r ∧
      (Reads (enterAll r new) (pre ++ (post ++ new)) ↔ KeepsBefore pre e post) := by
  by_cases hnil : post = []
  · subst hnil
    have hbuild : build (pre ++ [e]) = render (pre.map written ++ [written e]) := by
      rw [build_eq_render, List.map_append, List.map_singleton]
    refine ⟨build pre, ?_, iff_of_true ?_ (.inl rfl)⟩
    · rw [hbuild] at hfind hlen ⊢
      rw [build_eq_render pre]
      exact renameText_last (plain_written (h.plain e (by simp))) hfind hlen
    · rw [enterAll_build, List.nil_append]
      exact reads_build fun a ha => hnew.plain a (by
        rcases List.mem_append.1 ha with ha | ha
        · exact List.mem_append_left _ ha
        · exact List.mem_append_right _ (List.mem_cons_of_mem e ha))
  · rcases List.eq_nil_or_concat' pre with rfl | ⟨front, a, rfl⟩
    · obtain ⟨r, hr, hnot⟩ := reads_rename_first hnew.plain hnil hfind hlen
      refine ⟨r, hr, iff_of_false ?_ ?_⟩
      · obtain ⟨d, rest, rfl⟩ := List.exists_cons_of_ne_nil hnil
        exact hnot d _ (h.ne_nil d (by simp))
      · rintro (hempty | ⟨front, a, hempty, -⟩)
        · exact hnil hempty
        · simp at hempty
    · rw [List.append_assoc, List.singleton_append] at hnew hfind hlen ⊢
      obtain ⟨r, hr, hread⟩ := reads_rename_behind hnew.plain hnil hfind hlen
      refine ⟨r, hr, ?_⟩
      rw [List.append_assoc, List.singleton_append, hread, keepsBefore_concat hnil, ← n2i_concat_iff,
        and_iff_left rfl]

theorem Named.renameText_iff (h : Named (pre ++ e :: post)) (hnew : Clear (pre ++ e :: (post ++ new)))
    (hlen : (build (pre ++ e :: post)).length < 2 ^ 32 - 1) :
    ∃ r, renameText (build (pre ++ e :: post)) e.1 = some r ∧ (Reads (enterAll r new) (pre ++ (post ++ new)) ↔
      find (build (pre ++ e :: post)) e.1 0 = some (startOf (pre.map written)) ∧ KeepsBefore pre e post) := by
  have hne := h.ne_nil e (by simp)
  obtain ⟨b, hle, hfind, hprefix⟩ := find_own pre e post
  rcases hle.eq_or_lt with rfl | hlt
  · rw [and_iff_right hfind]
    exact h.reads_rename_own hnew hfind hlen
  · have hother : ¬(find (build (pre ++ e :: post)) e.1 0 = some (startOf (pre.map written)) ∧
        KeepsBefore pre e post) := by
      rw [hfind]
      exact fun hown => hlt.ne (Option.some.inj hown.1)
    simp only [iff_false_intro hother, iff_false]
    rw [build_eq_render, List.map_append, List.map_cons] at hprefix
    obtain ⟨front', a', mid', hsplit, hcase⟩ := occurrence_split (h.plain e (by simp)) hlt hprefix
    obtain ⟨front, l, rfl, rfl, hl⟩ := List.map_eq_append_iff.1 hsplit
    obtain ⟨a, mid, rfl, rfl, rfl⟩ := List.map_eq_cons_iff.1 hl
    simp only [List.append_assoc, List.cons_append] at hnew hfind hlen ⊢
    rcases hcase with ⟨u, y, ha, rfl⟩ | ⟨u, y, ha, rfl⟩
    · exact hnew.not_reads_rename_name hne ha hfind hlen
    · refine hnew.not_reads_rename_num hne (fun m hm => ?_) ha hfind hlen
      exact h.ne_nil m (by simp [hm])

end
end Yfs.Client
