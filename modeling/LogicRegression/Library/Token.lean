import Mathlib.Tactic
import Mathlib.Data.List.Infix

namespace LogicRegression.Token

variable {A : Type}

section Apart

variable {head : A} {tail : List A}

/-- Two texts are apart when no occurrence can reach from the first into the second. -/
def Apart (head : A) (tail first second : List A) : Prop :=
  (∀ c ∈ second.head?, c ∉ tail) ∨ ∀ c ∈ first.getLast?, c ∉ (head :: tail).dropLast

theorem Apart.of_cons {c : A} {first second : List A} (apart : Apart head tail (c :: first) second) :
    Apart head tail first second := by
  refine apart.imp_right fun last d listed => last d ?_
  rw [List.getLast?_cons, Option.mem_def.mp listed]
  rfl

theorem Apart.of_append {start first second : List A}
    (apart : Apart head tail (start ++ first) second) : Apart head tail first second := by
  induction start with
  | nil => exact apart
  | cons c start ih => exact ih apart.of_cons

/-- An occurrence at the start of the joined texts lies in the first text. -/
theorem token_of_append {c : A} {first second : List A}
    (apart : Apart head tail (c :: first) second)
    (found : head :: tail <+: c :: first ++ second) : head :: tail <+: c :: first := by
  rcases List.prefix_or_prefix_of_prefix found (List.prefix_append (c :: first) second) with
    inside | short
  · exact inside
  · obtain ⟨more, split⟩ := short
    cases more with
    | nil => exact ⟨[], by rw [List.append_nil] at split ⊢; exact split.symm⟩
    | cons d more =>
        rw [← split, List.prefix_append_right_inj] at found
        obtain ⟨rest, rfl⟩ := found
        have tailEq : first ++ d :: more = tail := (List.cons.inj split).2
        rcases apart with next | last
        · exact absurd (by simp [← tailEq]) (next d rfl)
        · have cut : (head :: tail).dropLast = c :: first ++ (d :: more).dropLast := by
            rw [← split, List.dropLast_append_of_ne_nil (by simp)]
          refine absurd ?_ (last ((c :: first).getLast (by simp)) (List.getLast?_eq_getLast_of_ne_nil _))
          rw [cut]
          exact List.mem_append_left _ (List.getLast_mem _)

/-- No occurrence of the token can start inside another one. -/
theorem apart_token (borderless : head ∉ tail) (first rest : List A) :
    Apart head tail first (head :: tail ++ rest) := by
  refine .inl fun c start => ?_
  obtain rfl : head = c := by simpa using start
  exact borderless

/-- The first piece starts the joined text. -/
theorem piece_starts (token piece : List A) (pieces : List (List A)) :
    piece <+: token.intercalate (piece :: pieces) := by
  cases pieces with
  | nil => simp
  | cons next pieces =>
      rw [List.intercalate_cons_cons, List.append_assoc]
      exact List.prefix_append _ _

end Apart

variable [DecidableEq A]

/-- The scan cuts out each occurrence of the token and goes on behind it. -/
def erase (head : A) (tail : List A) (text : List A) : List A :=
  if head :: tail <+: text then erase head tail (text.drop (tail.length + 1))
  else
    match text with
    | [] => []
    | c :: rest => c :: erase head tail rest
termination_by text.length
decreasing_by
  all_goals simp_wf
  next found =>
    have := found.length_le
    simp only [List.length_cons] at this
    omega

section Erase

variable {head : A} {tail : List A}

@[simp] theorem erase_nil : erase head tail [] = [] := by
  rw [erase.eq_def, if_neg (by simp)]

/-- An occurrence at the start is dropped. -/
theorem erase_token (rest : List A) : erase head tail (head :: tail ++ rest) = erase head tail rest := by
  rw [erase.eq_def, if_pos (List.prefix_append _ _)]
  simp

/-- Without an occurrence at the start the first letter stays. -/
theorem erase_cons {c : A} {rest : List A} (absent : ¬ head :: tail <+: c :: rest) :
    erase head tail (c :: rest) = c :: erase head tail rest := by
  rw [erase.eq_def, if_neg absent]

/-- Texts that are apart are scanned one after the other. -/
theorem erase_append {first second : List A} (apart : Apart head tail first second) :
    erase head tail (first ++ second) = erase head tail first ++ erase head tail second := by
  induction size : first.length using Nat.strong_induction_on generalizing first with
  | _ count ih =>
      cases first with
      | nil => simp
      | cons c first =>
          by_cases found : head :: tail <+: c :: first
          · obtain ⟨rest, split⟩ := found
            rw [← split] at apart size ⊢
            rw [List.append_assoc, erase_token, erase_token]
            exact ih rest.length (by simp at size; omega) apart.of_append rfl
          · have absent : ¬ head :: tail <+: c :: (first ++ second) := fun present =>
              found (token_of_append apart present)
            rw [List.cons_append, erase_cons absent, erase_cons found, List.cons_append,
              ih first.length (by simp at size; omega) apart.of_cons rfl]

theorem erase_length_le (text : List A) : (erase head tail text).length ≤ text.length := by
  induction size : text.length using Nat.strong_induction_on generalizing text with
  | _ count ih =>
      cases text with
      | nil => simp
      | cons c text =>
          by_cases found : head :: tail <+: c :: text
          · obtain ⟨rest, split⟩ := found
            have shorter := ih rest.length (by rw [← size, ← split]; simp) rest rfl
            rw [← split] at size ⊢
            rw [erase_token]
            simp at size
            omega
          · have shorter := ih text.length (by rw [← size]; simp) text rfl
            rw [erase_cons found, List.length_cons, ← size, List.length_cons]
            omega

/-- A text stays as it is exactly when the token does not occur in it. -/
theorem erase_eq_self_iff {text : List A} :
    erase head tail text = text ↔ ¬ head :: tail <:+: text := by
  induction text with
  | nil => simp
  | cons c text ih =>
      rw [List.infix_cons_iff, not_or]
      by_cases found : head :: tail <+: c :: text
      · simp only [found, not_true_eq_false, false_and, iff_false]
        intro same
        obtain ⟨rest, split⟩ := found
        have short : (erase head tail rest).length ≤ rest.length := erase_length_le rest
        rw [← split, erase_token] at same
        rw [same] at short
        simp at short
      · rw [erase_cons found, List.cons_inj_right, ih]
        simp [found]

/-- The scan of pieces that are joined by the token leaves the pieces. -/
theorem erase_intercalate (borderless : head ∉ tail) {pieces : List (List A)}
    (clean : ∀ piece ∈ pieces, ¬ head :: tail <:+: piece) :
    erase head tail ((head :: tail).intercalate pieces) = pieces.flatten := by
  induction pieces with
  | nil => simp
  | cons piece pieces ih =>
      have first := erase_eq_self_iff.mpr (clean piece (by simp))
      have later := ih fun other listed => clean other (by simp [listed])
      cases pieces with
      | nil => simpa using first
      | cons next pieces =>
          rw [List.intercalate_cons_cons, List.append_assoc,
            erase_append (apart_token borderless piece _), erase_token, first, later]
          rfl

/-- Each text has pieces without the token that are joined by it. -/
theorem exists_pieces (head : A) (tail text : List A) :
    ∃ pieces : List (List A), (∀ piece ∈ pieces, ¬ head :: tail <:+: piece) ∧
      (head :: tail).intercalate pieces = text := by
  have general : ∃ piece pieces, (∀ other ∈ piece :: pieces, ¬ head :: tail <:+: other) ∧
      (head :: tail).intercalate (piece :: pieces) = text := by
    induction size : text.length using Nat.strong_induction_on generalizing text with
    | _ count ih =>
        cases text with
        | nil => exact ⟨[], [], by simp, by simp⟩
        | cons c text =>
            by_cases found : head :: tail <+: c :: text
            · obtain ⟨rest, split⟩ := found
              obtain ⟨piece, pieces, clean, join⟩ :=
                ih rest.length (by rw [← size, ← split]; simp) rest rfl
              refine ⟨[], piece :: pieces, ?_, ?_⟩
              · intro other listed
                rcases List.mem_cons.mp listed with rfl | later
                · simp
                · exact clean other later
              · rw [List.intercalate_cons_cons, join, ← split]
                rfl
            · obtain ⟨piece, pieces, clean, join⟩ :=
                ih text.length (by rw [← size]; simp) text rfl
              refine ⟨c :: piece, pieces, ?_, ?_⟩
              · intro other listed
                rcases List.mem_cons.mp listed with rfl | later
                · rw [List.infix_cons_iff, not_or]
                  refine ⟨fun start => found ?_, clean piece (by simp)⟩
                  rw [← join]
                  exact start.trans ((List.prefix_cons_inj c).mpr (piece_starts _ piece pieces))
                · exact clean other (by simp [later])
              · rw [List.intercalate_cons_cons_left, join]
  obtain ⟨piece, pieces, clean, join⟩ := general
  exact ⟨piece :: pieces, clean, join⟩

end Erase

end LogicRegression.Token
