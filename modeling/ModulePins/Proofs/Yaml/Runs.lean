import Mathlib.Data.List.SplitBy
import ModulePins.Proofs.Yaml.ReadBack

/-!
# Runs of a text

A text is its longest runs of spaces, breaks and words, one after the other, and an induction over
texts may go from run to run.
-/

namespace ModulePins.Yaml.Printer

variable {kind : Kind} {run rest cs : List Char} {c : Char}

/-- A longest run of one kind at the head of a text. -/
structure IsRun (kind : Kind) (run rest : List Char) : Prop where
  ne_nil : run ≠ []
  kindOf_eq : ∀ c ∈ run, kindOf c = kind
  ends : ∀ c ∈ rest.head?, kindOf c ≠ kind

theorem IsRun.runs_append (h : IsRun kind run rest) : runs (run ++ rest) = run :: runs rest := by
  have hchain : run.IsChain fun a b => (kindOf a == kindOf b) = true := by
    refine (List.pairwise_of_forall_mem_list fun a ha b hb => ?_).isChain
    rw [h.kindOf_eq a ha, h.kindOf_eq b hb, beq_self_eq_true]
  have hends : ∀ a ∈ run.getLast?, ∀ b ∈ rest.head?, (kindOf a == kindOf b) = false := by
    intro a ha b hb
    rw [h.kindOf_eq a (List.mem_of_mem_getLast? ha), beq_eq_false_iff_ne]
    exact (h.ends b hb).symm
  rw [runs, List.splitBy_append hends, List.splitBy_of_isChain h.ne_nil hchain]
  rfl

theorem exists_isRun (c : Char) (cs : List Char) :
    ∃ run rest, c :: cs = run ++ rest ∧ IsRun (kindOf c) run rest := by
  refine ⟨(c :: cs).takeWhile (kindOf · == kindOf c), (c :: cs).dropWhile (kindOf · == kindOf c),
    List.takeWhile_append_dropWhile.symm, ?_, ?_, ?_⟩
  · rw [List.takeWhile_cons_of_pos (by simp)]
    exact List.cons_ne_nil _ _
  · intro d hd
    simpa using List.all_eq_true.mp List.all_takeWhile d hd
  · intro d hd
    have hnot := List.head?_dropWhile_not (kindOf · == kindOf c) (c :: cs)
    rw [Option.mem_def.mp hd] at hnot
    simpa using hnot

/-- To show something of all texts, put one run before a text at a time. -/
theorem runs_induction {P : List Char → Prop} (nil : P [])
    (append : ∀ kind run rest, IsRun kind run rest → P rest → P (run ++ rest)) (cs : List Char) :
    P cs := by
  induction hlength : cs.length using Nat.strongRecOn generalizing cs with
  | ind n ih =>
    subst hlength
    cases cs with
    | nil => exact nil
    | cons c cs =>
      obtain ⟨run, rest, hcs, hrun⟩ := exists_isRun c cs
      rw [hcs] at ih ⊢
      refine append _ run rest hrun (ih _ ?_ rest rfl)
      have := List.length_pos_iff.mpr hrun.ne_nil
      simpa using this

theorem kindOf_eq_space : kindOf c = .space ↔ c = ' ' := by
  unfold kindOf
  grind

theorem kindOf_eq_break : kindOf c = .break ↔ isInnerBreak c = true := by
  unfold kindOf
  have hspace : isInnerBreak ' ' = false := by decide
  grind

theorem kindOf_eq_word : kindOf c = .word ↔ c ≠ ' ' ∧ isInnerBreak c = false := by
  unfold kindOf
  grind

theorem of_kindOf_eq_word (h : kindOf c = .word) (hspecial : isSpecial c = false) :
    isSpaceOrTab c = false ∧ isBreak c = false := by
  obtain ⟨hspace, hbreak⟩ := kindOf_eq_word.mp h
  have htab : c ≠ '\t' := by rintro rfl; cases hspecial
  have hreturn : c ≠ '\r' := by rintro rfl; cases hspecial
  simp only [isInnerBreak, Bool.or_eq_false_iff, beq_eq_false_iff_ne] at hbreak
  simp [isSpaceOrTab, isBreak, isLineEnd, hspace, hbreak, htab, hreturn]

theorem IsRun.eq_replicate (h : IsRun .space run rest) : run = List.replicate run.length ' ' :=
  List.eq_replicate_of_mem fun c hc => kindOf_eq_space.mp (h.kindOf_eq c hc)

theorem IsRun.head?_eq_space (h : IsRun .space run rest) : run.head? = some ' ' := by
  obtain ⟨c, more, rfl⟩ := List.exists_cons_of_ne_nil h.ne_nil
  rw [kindOf_eq_space.mp (h.kindOf_eq c List.mem_cons_self)]
  rfl

end ModulePins.Yaml.Printer
