import Yfs.Hdfs.Namespace

/-! Paths and their components. -/
namespace Yfs.Hdfs
open Yfs.Client

theorem slash_not_mem_of_mem_splitOn {l c : Str} (h : c ∈ l.splitOn slash) : slash ∉ c := by
  induction l generalizing c with
  | nil =>
    rw [List.splitOn_nil, List.mem_singleton] at h
    rw [h]
    exact List.not_mem_nil
  | cons x l ih =>
    rw [List.splitOn_cons_eq_if_modifyHead] at h
    split_ifs at h with hx
    · rcases List.mem_cons.1 h with rfl | h
      · exact List.not_mem_nil
      · exact ih h
    · have hne : x ≠ slash := fun heq => hx (by rw [heq]; exact beq_self_eq_true slash)
      cases hsplit : l.splitOn slash with
      | nil => exact absurd hsplit (List.splitOn_ne_nil slash l)
      | cons c' rest =>
        rw [hsplit, List.modifyHead_cons] at h
        rcases List.mem_cons.1 h with rfl | h
        · have hc' : slash ∉ c' := ih (by rw [hsplit]; exact List.mem_cons_self)
          rw [List.mem_cons, not_or]
          exact ⟨Ne.symm hne, hc'⟩
        · exact ih (by rw [hsplit]; exact List.mem_cons_of_mem c' h)

theorem subset_of_mem_splitOn {l c : Str} (h : c ∈ l.splitOn slash) : c ⊆ l := by
  induction l generalizing c with
  | nil =>
    rw [List.splitOn_nil, List.mem_singleton] at h
    rw [h]
    exact List.nil_subset []
  | cons x l ih =>
    rw [List.splitOn_cons_eq_if_modifyHead] at h
    split_ifs at h
    · rcases List.mem_cons.1 h with rfl | h
      · exact List.nil_subset _
      · exact List.subset_cons_of_subset x (ih h)
    · cases hsplit : l.splitOn slash with
      | nil => exact absurd hsplit (List.splitOn_ne_nil slash l)
      | cons c' rest =>
        rw [hsplit, List.modifyHead_cons] at h
        rcases List.mem_cons.1 h with rfl | h
        · exact List.cons_subset_cons x (ih (by rw [hsplit]; exact List.mem_cons_self))
        · exact List.subset_cons_of_subset x (ih (by rw [hsplit]; exact List.mem_cons_of_mem c' h))

theorem takeWhile_reverse {path : Str} (h : slash ∉ path) :
    path.reverse.takeWhile (fun c => c ≠ slash) = path.reverse := by
  rw [List.takeWhile_eq_self_iff]
  intro c hc
  have hne : c ≠ slash := fun heq => h (heq ▸ List.mem_reverse.1 hc)
  simpa using hne

theorem baseName_of_not_mem {path : Str} (h : slash ∉ path) : baseName path = path := by
  rw [baseName, takeWhile_reverse h, List.reverse_reverse]

theorem baseName_cons {path : Str} (h : slash ∈ path) (c : UInt8) : baseName (c :: path) = baseName path := by
  have hlt : (path.reverse.takeWhile fun c => c ≠ slash).length ≠ path.reverse.length := by
    intro heq
    have hall := (List.takeWhile_sublist _).eq_of_length heq
    have hne := List.takeWhile_eq_self_iff.1 hall slash (List.mem_reverse.2 h)
    simp at hne
  rw [baseName, List.reverse_cons, List.takeWhile_append, if_neg hlt, baseName]

theorem baseName_slash (path : Str) : baseName (slash :: path) = baseName path := by
  by_cases h : slash ∈ path
  · exact baseName_cons h slash
  · have hall := takeWhile_reverse h
    rw [baseName, List.reverse_cons, List.takeWhile_append, if_pos (by rw [hall]), baseName_of_not_mem h]
    simp

theorem baseName_subset (path : Str) : baseName path ⊆ path := by
  intro c hc
  have hmem := List.takeWhile_subset _ (List.mem_reverse.1 hc)
  exact List.mem_reverse.1 hmem

theorem getLast?_splitOn (path : Str) : (path.splitOn slash).getLast? = some (baseName path) := by
  induction path with
  | nil => rfl
  | cons c path ih =>
    rw [List.splitOn_cons_eq_if_modifyHead]
    split_ifs with hc
    · have hslash : c = slash := by simpa using hc
      rw [hslash, baseName_slash, ← ih]
      cases hsplit : path.splitOn slash with
      | nil => exact absurd hsplit (List.splitOn_ne_nil slash path)
      | cons c' rest => rw [List.getLast?_cons_cons]
    · have hne : c ≠ slash := by simpa using hc
      by_cases hmem : slash ∈ path
      · rw [baseName_cons hmem, ← ih]
        cases hsplit : path.splitOn slash with
        | nil => exact absurd hsplit (List.splitOn_ne_nil slash path)
        | cons c' rest =>
          cases rest with
          | nil =>
            -- a single part would be the whole path
            have hpath : [slash].intercalate (path.splitOn slash) = path := List.intercalate_splitOn slash
            rw [hsplit] at hpath
            have hnot : slash ∉ c' := slash_not_mem_of_mem_splitOn (by rw [hsplit]; exact List.mem_cons_self)
            have heq : c' = path := by simpa using hpath
            exact absurd (heq ▸ hmem) hnot
          | cons c'' rest => rw [List.modifyHead_cons, List.getLast?_cons_cons, List.getLast?_cons_cons]
      · rw [List.splitOn_eq_singleton hmem, List.modifyHead_cons, List.getLast?_singleton,
          baseName_of_not_mem]
        rw [List.mem_cons, not_or]
        exact ⟨Ne.symm hne, hmem⟩

namespace NameNode

theorem getLast?_components {path : Str} (habsolute : path.head? = some slash) (h : baseName path ≠ []) :
    (components path).getLast? = some (baseName path) := by
  obtain ⟨rest, rfl⟩ : ∃ rest, path = slash :: rest := by
    cases path with
    | nil => cases habsolute
    | cons c rest => exact ⟨rest, by rw [Option.some.inj habsolute]⟩
  rw [baseName_slash] at h ⊢
  obtain ⟨init, hinit⟩ := List.getLast?_eq_some_iff.1 (getLast?_splitOn rest)
  rw [components, List.drop_one, List.tail_cons, hinit, List.filter_append, List.filter_singleton,
    decide_eq_true h, cond_true, List.getLast?_concat]

end NameNode
end Yfs.Hdfs
