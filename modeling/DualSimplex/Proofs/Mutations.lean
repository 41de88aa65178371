import DualSimplex.Proofs.Double
import DualSimplex.Proofs.Indexed

/-!
# Sequences of operations on a vector

Whatever has been done to a vector, every nonzero position is listed.  None is listed twice as
long as no operation writes to a position that is listed with a zero, and the list has the
nonzero positions alone as long as no entry is scaled to zero.
-/

namespace DualSimplex

open Scalar

/-- The operations that change a vector. -/
inductive Mutation (α : Type) where
  | add (i : Nat) (x : α)
  | saxpy (alpha : α) (other : SparseVector α)
  | assign (other : SparseVector α)
  | clear
  | dropTiny
  | pack
  | reindex
  | scale (factor : α)
  | setOnly (i : Nat) (x : α)

namespace Mutation

variable {α : Type} [Scalar α]

def apply (v : SparseVector α) : Mutation α → SparseVector α
  | add i x => v.add i x
  | saxpy alpha other => v.saxpy alpha other
  | assign other => v.assign other
  | clear => v.clear
  | dropTiny => v.dropTiny
  | pack => v.pack
  | reindex => v.reindex
  | scale factor => v.scale factor
  | setOnly i x => v.setOnly i x

/-- The vector that an operation reads besides the one that it changes. -/
def operand : Mutation α → Option (SparseVector α)
  | saxpy _ other => some other
  | assign other => some other
  | _ => none

/-- Positions are within the dimension, operands have the same, and a single position is set
in a vector without entries only, to a value that is not zero. -/
def Admissible (v : SparseVector α) : Mutation α → Prop
  | add i x => (x == 0) = false → i < v.dim
  | saxpy _ other => other.dim = v.dim
  | assign other => other.dim = v.dim
  | setOnly i x => v.support = [] ∧ i < v.dim ∧ (x == 0) = false
  | _ => True

/-- The operation puts a nonzero value at a position that is listed with a zero. -/
def Revives (v : SparseVector α) : Mutation α → Prop
  | add i x => (x == 0) = false ∧ i ∈ v.support ∧ (v.get i == 0) = true
  | saxpy alpha other => ∃ i ∈ other.support, i ∈ v.support ∧ v.enters alpha other i = true
  | _ => False

/-- The operation scales a listed entry to zero. -/
def Annihilates (v : SparseVector α) : Mutation α → Prop
  | scale factor => ∃ i ∈ v.support, (v.get i * factor == 0) = true
  | _ => False

end Mutation

namespace SparseVector

variable {α : Type} [Scalar α]

/-- The vectors that are made by a sequence of operations of a kind, in which every operand has
been made so as well. -/
inductive Made (kind : SparseVector α → Mutation α → Prop) : SparseVector α → Prop
  | zero (dim : Nat) (density : Float) : Made kind (zero dim density)
  | ofTerms (dim : Nat) (terms : List (Nat × α))
    (hterms : ∀ t ∈ terms, (t.2 == 0) = false → t.1 < dim) : Made kind (ofTerms dim terms)
  | mutate {v : SparseVector α} (hv : Made kind v) (m : Mutation α) (hm : m.Admissible v)
    (hkind : kind v m) (hoperand : ∀ w, m.operand = some w → Made kind w) : Made kind (m.apply v)

/-! ## One operation -/

variable [LawfulScalar α] {v w : SparseVector α} {m : Mutation α} {n : Nat}

omit [LawfulScalar α] in
theorem Covered.cleared (h : v.Covered) (hsupport : v.support = []) : v.Cleared :=
  ⟨hsupport, fun _ => h.beq_zero (hsupport ▸ List.not_mem_nil)⟩

theorem Covered.apply (h : v.Covered) (hm : m.Admissible v)
    (hoperand : ∀ w, m.operand = some w → w.Covered) : (m.apply v).Covered := by
  cases m with
  | add i x => exact h.add hm
  | saxpy alpha other =>
    exact (h.saxpy (fun i hi => hm ▸ (hoperand other rfl).lt i hi) alpha).1
  | assign other => exact h.assign (hoperand other rfl) hm
  | clear => exact h.cleared_clear.listed.indexed.toCovered
  | dropTiny => exact h.dropTiny
  | pack => exact ⟨h.dropTiny.lt, h.dropTiny.mem_support⟩
  | reindex => exact (listed_reindex rfl).indexed.toCovered
  | scale factor => exact h.scale factor
  | setOnly i x =>
    obtain ⟨hsupport, hi, hx⟩ := hm
    exact ((h.cleared hsupport).listed.setOnly hi
      ((h.cleared hsupport).beq_zero i) hx).indexed.toCovered

/-- A position is listed twice if and only if a zero is revived. -/
theorem nodup_apply_iff (h : v.support.Nodup) (hm : m.Admissible v)
    (hoperand : ∀ w, m.operand = some w → w.Indexed) :
    (m.apply v).support.Nodup ↔ ¬m.Revives v := by
  have hnot : ∀ {p : Prop}, p → (p ↔ ¬False) := fun hp => ⟨fun _ => id, fun _ => hp⟩
  cases m with
  | add i x => exact nodup_add_iff h
  | saxpy alpha other =>
    have hother := hoperand other rfl
    exact nodup_saxpy_iff h hother.nodup fun i hi => hm ▸ hother.lt i hi
  | assign other => exact hnot (hoperand other rfl).nodup
  | clear => exact hnot List.nodup_nil
  | dropTiny => exact hnot (h.filter _)
  | pack => exact hnot (h.filter _)
  | reindex => exact hnot (listed_reindex (rfl : v.dim = v.dim)).nodup
  | scale factor => exact hnot ((v.scale_spec factor).1.symm ▸ h)
  | setOnly i x =>
    refine hnot ?_
    show (v.support ++ [i]).Nodup
    rw [hm.1]
    exact List.nodup_singleton i

theorem Listed.apply (h : v.Listed n) (hm : m.Admissible v)
    (hoperand : ∀ w, m.operand = some w → w.Listed w.dim) (hkeeps : ¬m.Annihilates v) :
    (m.apply v).Listed n := by
  cases m with
  | add i x =>
    by_cases hx : (x == 0) = true
    · show (v.add i x).Listed n
      rw [add_eq_enter, if_pos hx]
      exact h
    · exact h.add ((hm (Bool.eq_false_iff.mpr hx)).trans_eq h.dim_eq) x
  | saxpy alpha other =>
    have hother := hoperand other rfl
    exact h.saxpy hother.nodup (fun i hi => hm ▸ hother.lt hi) alpha
  | assign other =>
    have hother := hoperand other rfl
    rw [show other.dim = v.dim from hm, h.dim_eq] at hother
    exact h.assign hother
  | clear => exact h.clear
  | dropTiny => exact h.dropTiny
  | pack => exact ⟨h.dropTiny.dim_eq, h.dropTiny.nodup, h.dropTiny.mem_support⟩
  | reindex => exact listed_reindex h.dim_eq
  | scale factor =>
    exact h.scale fun i hi => Bool.eq_false_iff.mpr fun hzero => hkeeps ⟨i, hi, hzero⟩
  | setOnly i x =>
    obtain ⟨hsupport, hi, hx⟩ := hm
    exact h.setOnly (h.dim_eq ▸ hi) ((h.indexed.toCovered.cleared hsupport).beq_zero i) hx

/-! ## Sequences -/

theorem listed_ofTerms {terms : List (Nat × α)}
    (hterms : ∀ t ∈ terms, (t.2 == 0) = false → t.1 < n) : (ofTerms n terms).Listed n := by
  refine List.foldlRecOn terms _ (motive := fun v : SparseVector α => v.Listed n)
    (listed_zero n defaultDensity) fun v hv t ht => ?_
  exact hv.apply (m := .add t.1 t.2) (fun ht' => hv.dim_eq ▸ hterms t ht ht') nofun id

variable {kind : SparseVector α → Mutation α → Prop}

theorem Made.covered (h : Made kind v) : v.Covered := by
  induction h with
  | zero dim density => exact (listed_zero dim density).indexed.toCovered
  | ofTerms dim terms hterms => exact (listed_ofTerms hterms).indexed.toCovered
  | mutate _ m hm _ _ ih ihoperand => exact ih.apply hm ihoperand

theorem Made.indexed (h : Made kind v) (hkind : ∀ v m, kind v m → ¬m.Revives v) : v.Indexed := by
  induction h with
  | zero dim density => exact (listed_zero dim density).indexed
  | ofTerms dim terms hterms => exact (listed_ofTerms hterms).indexed
  | mutate _ m hm hm' _ ih ihoperand =>
    exact ⟨ih.toCovered.apply hm fun w hw => (ihoperand w hw).toCovered,
      (nodup_apply_iff ih.nodup hm ihoperand).mpr (hkind _ m hm')⟩

theorem Made.listed (h : Made kind v) (hkind : ∀ v m, kind v m → ¬m.Annihilates v) :
    v.Listed v.dim := by
  induction h with
  | zero dim density =>
    have hlisted : (SparseVector.zero dim density : SparseVector α).Listed dim :=
      listed_zero dim density
    exact hlisted.dim_eq.symm ▸ hlisted
  | ofTerms dim terms hterms =>
    have hlisted := listed_ofTerms hterms
    exact hlisted.dim_eq.symm ▸ hlisted
  | mutate _ m hm hm' _ ih ihoperand =>
    have hlisted := ih.apply hm ihoperand (hkind _ m hm')
    exact hlisted.dim_eq.symm ▸ hlisted

/-- A vector lists every nonzero position.  It lists a position twice after an operation if and
only if that revives a listed zero, and there is no such zero unless an entry has been scaled to
zero.  What goes by the list otherwise meets every nonzero entry once. -/
theorem list_leads_to_nonzeros :
    (∀ (kind : SparseVector α → Mutation α → Prop) (v : SparseVector α), Made kind v →
      v.Covered ∧ v.clear.Cleared) ∧
    (∀ (v : SparseVector α) (m : Mutation α), v.Indexed → m.Admissible v →
      (∀ w, m.operand = some w → w.Indexed) → ((m.apply v).Indexed ↔ ¬m.Revives v)) ∧
    (∀ v : SparseVector α, Made (fun v m => ¬m.Revives v) v → v.Indexed ∧
      (v.entries.filter fun u => !(u.2 == 0)).Perm
        (((List.range v.dim).map fun i => (i, v.get i)).filter fun u => !(u.2 == 0)) ∧
      ∀ w : SparseVector α, w.Covered → v.dim = w.dim → ∀ i,
        (w.assign v).get i = v.get i ∨ ((w.assign v).get i == 0) = true ∧ (v.get i == 0) = true) ∧
    (∀ (cutoff : ℚ) (v : SparseVector (Exact cutoff)), Made (fun v m => ¬m.Revives v) v →
      v.normSquared.value = ∑ i ∈ Finset.range v.dim, v.valueAt i ^ 2) ∧
    ∀ v : SparseVector α, Made (fun v m => ¬m.Annihilates v) v → v.Listed v.dim := by
  refine ⟨fun kind v h => ⟨h.covered, h.covered.cleared_clear⟩, fun v m h hm hoperand => ?_,
    fun v h => ?_, fun cutoff v h => ?_, fun v h => h.listed fun _ _ => id⟩
  · rw [← nodup_apply_iff h.nodup hm hoperand]
    exact ⟨Indexed.nodup,
      Indexed.mk (h.toCovered.apply hm fun w hw => (hoperand w hw).toCovered)⟩
  · have hindexed := h.indexed fun _ _ => id
    exact ⟨hindexed, hindexed.perm_entries, fun w hw hdim => hindexed.get_assign hw hdim⟩
  · exact (h.indexed fun _ _ => id).value_normSquared

/-- A vector with an entry that is scaled to zero. -/
def annihilated : SparseVector Float :=
  (ofTerms 4 [(2, 1.5)]).scale 0

theorem made_annihilated {kind : SparseVector Float → Mutation Float → Prop}
    (hkind : kind (ofTerms 4 [(2, 1.5)]) (.scale 0)) : Made kind annihilated :=
  (Made.ofTerms 4 [(2, 1.5)] (by simp)).mutate (.scale 0) trivial hkind nofun

/-- The zero may stay on the list when something is added elsewhere. -/
theorem list_leads_to_nonzeros_annihilated : (annihilated.add 1 1).support = [2, 1] ∧
    (annihilated.add 1 1).Indexed := by
  have hkind : ¬(Mutation.add 1 1).Revives annihilated := fun h =>
    absurd h.2.1 (by decide +kernel)
  refine ⟨by decide +kernel, (list_leads_to_nonzeros.2.2.1 _ ?_).1⟩
  exact (made_annihilated id).mutate (.add 1 1) (fun _ => by decide +kernel) hkind nofun

/-- When something is added at its position, it is listed twice and counted twice. -/
theorem revived_twice : Made (fun _ _ => True) (annihilated.add 2 1) ∧
    (annihilated.add 2 1).support = [2, 2] ∧ ¬(annihilated.add 2 1).support.Nodup ∧
    (((annihilated.add 2 1).get 2 == 1) && ((annihilated.add 2 1).normSquared == 2)) = true := by
  refine ⟨?_, by decide +kernel, by decide +kernel, by decide +kernel⟩
  exact (made_annihilated trivial).mutate (.add 2 1) (fun _ => by decide +kernel) trivial nofun

end SparseVector
end DualSimplex
