import DualSimplex.Proofs.Engine.Factors
import DualSimplex.Proofs.Engine.Pivoting
import DualSimplex.Proofs.Factor.Reachable

/-!
# Values that are kept up to date

The basic values are changed with every basis change, and computed from the others only
when something else has moved a variable.  With exact numbers it makes no difference: at
every boundary they are what a computation from scratch would give.
-/

namespace DualSimplex

open Scalar Exact

namespace Engine

variable {t : Job (Exact 0)} {e e' : Engine (Exact 0)} {x : Exchange (Exact 0)}

/-- The values solve the equations, and they are those that would be computed from the
variables outside the basis. -/
structure ValuesSolved (t : Job (Exact 0)) (e : Engine (Exact 0)) : Prop where
  balanced : e.Balanced t
  computed : ∀ j, j < t.size → ((e.solveValues t).valueOf j).value = (e.valueOf j).value

/-- Only one choice of the basic values solves the equations. -/
theorem Current.values_unique (hcurrent : e.Current t) (h : e.Sound t) (hbalanced : e.Balanced t)
    (hbalanced' : e'.Balanced t) (hresting : ∀ j, e.statusOf j ≠ .basic →
      (e'.valueOf j).value = (e.valueOf j).value) {j : Nat} (hj : j < t.size) :
    (e'.valueOf j).value = (e.valueOf j).value := by
  have hm : e.factor.lu.m = t.rowCount := h.factor.m_eq
  have hresting' : ∀ i, ∑ j ∈ Finset.range t.size, (if e.statusOf j = .basic then 0
      else coefficient (t.column j) i * (e'.valueOf j).value) = ∑ j ∈ Finset.range t.size,
        if e.statusOf j = .basic then 0
        else coefficient (t.column j) i * (e.valueOf j).value := by
    refine fun i => Finset.sum_congr rfl fun j _ => ?_
    split
    · rfl
    · rename_i hstatus
      rw [hresting j hstatus]
  have hdifference : ∀ i, i < t.rowCount → ∑ p ∈ Finset.range t.rowCount,
      coefficient (t.column (e.basicAt p)) i * ((e'.valueOf (e.basicAt p)).value -
        (e.valueOf (e.basicAt p)).value) = 0 := by
    intro i hi
    have hnew := hbalanced' i hi
    have hold := hbalanced i hi
    unfold Engine.balance at hnew hold
    rw [sum_variables h.toPlaced] at hnew hold
    rw [hresting'] at hnew
    simp only [mul_sub, Finset.sum_sub_distrib]
    linarith
  by_cases hbasic : e.statusOf j = .basic
  · obtain ⟨p, hp, rfl⟩ := h.exists_position ((h.mem_iff j hj).mpr hbasic)
    refine sub_eq_zero.mp (hcurrent.solvable.eq_zero_of_sum_eq_zero (x := fun p =>
      (e'.valueOf (e.basicAt p)).value - (e.valueOf (e.basicAt p)).value)
      (fun i hi => ?_) (hm.symm ▸ hp))
    rw [hm] at hi ⊢
    refine (Finset.sum_congr rfl fun p hp => ?_).trans (hdifference i hi)
    rw [hcurrent.matrixAt i p hi (Finset.mem_range.mp hp)]
  · exact hresting j hbasic

theorem Current.valuesSolved (hcurrent : e.Current t) (ht : t.WellFormed) (h : e.Sound t)
    (hbalanced : e.Balanced t) : e.ValuesSolved t := by
  refine ⟨hbalanced, fun j hj => hcurrent.values_unique h hbalanced
    (hcurrent.balanced_solveValues ht h) (fun k hk => ?_) hj⟩
  rw [valueOf_solveValues_of_ne h hk]

theorem Faithful.valuesSolved (h : e.Faithful t) (ht : t.WellFormed)
    (hvalid : e.factorValid = true) : e.ValuesSolved t :=
  (h.current hvalid).valuesSolved ht h.sound (h.balanced hvalid)

/-- The engine that makes a basis change has solved for the entering column, and the
leaving variable violates the bound that it comes to. -/
theorem Settled.of_pivot (ht : t.WellFormed) (hpivot : 0 < t.parameters.pivotTolerance.value)
    (h : e.Settled t) (hx : e.pivot? t = some (e', x)) :
    e'.Settled t ∧ e'.Fits t x ∧ e'.Entered t x ∧
    (e'.boundsOf x.leaving).BroughtBack t.parameters.primalTolerance (e'.valueOf x.leaving)
      ((e'.applyExchange t x).1.valueOf x.leaving) := by
  obtain ⟨e₁, e₂, hrenewed, hdecided, hengine, hlarge, -⟩ := h.sound.of_pivot ht hx
  have h₁ := h.renewIfDue ht hpivot
  rw [hrenewed] at h₁
  have h₁ : e₁.Settled t := h₁
  have hrow : (e₁.priceRow t x.position).1.standing = e₁.standing :=
    (standing_price _ _).trans (standing_inverseRow e₁ x.position)
  obtain ⟨hsettled, hentered⟩ := (h₁.of_standing hrow).ftranEntering ht hdecided.fits.entering_lt
    hdecided.column_eq.symm
  have hentered := hentered (value_ne_zero_of_isTooSmall hpivot hlarge)
  rw [← hdecided.engine_eq] at hsettled hentered
  have hnote : e'.standing = e₂.standing := by
    rcases hengine with rfl | rfl
    · rfl
    · exact standing_note e₂ .pivotMismatch
  have hsettled := hsettled.of_standing hnote
  have hfits := hdecided.fits.congr (setting_congr hnote)
  have hbounds : e'.bounds = e₁.bounds := by
    have hsame : (e₁.priceRow t x.position).1.bounds = e₁.bounds :=
      bounds_congr (setting_congr hrow)
    rw [bounds_congr (setting_congr hnote), hdecided.engine_eq]
    exact hsame
  have hvalues : e'.value = e₁.value := by
    have hsame : (e₁.priceRow t x.position).1.value = e₁.value := value_congr hrow
    rw [value_congr hnote, hdecided.engine_eq]
    exact hsame
  exact ⟨hsettled, hfits, hentered.of_setting (setting_congr hnote),
    hdecided.broughtBack ht hsettled.sound hfits hbounds hvalues⟩

end Engine

/-- At every boundary of an iteration, after a renewal that is due there, and when the
solve is concluded there, the values solve the equations and are those that a computation
from scratch would give, as long as the factors are valid.  As long as a run goes on they
are.  A basis change brings the leaving variable to the bound that it violates and keeps
the equations, and unless the factors have to be renewed the next boundary has the values
that it has led to. -/
theorem Run.values_at_boundaries {d : Draft (Exact 0)} {lp : LinearProgram (Exact 0)}
    (hbuild : d.build = .ok lp) {basis : Basis} (hbasis : basis.validate lp = .ok ())
    {p : Parameters (Exact 0)} (hp : p.validate = .ok ()) (k : Nat) :
    let t : Job (Exact 0) := ⟨lp, p⟩
    let r := (step t)^[k] (begin t basis)
    (r.engine.factorValid = true → r.engine.ValuesSolved t) ∧
    ((r.engine.renewIfDue t).engine.factorValid = true →
      (r.engine.renewIfDue t).engine.ValuesSolved t) ∧
    ((r.engine.conclude t).factorValid = true → (r.engine.conclude t).ValuesSolved t) ∧
    ((∀ status, r.stage ≠ .done status) → r.engine.factorValid = true) ∧
    ∀ e x, r.stage.Iterates → r.engine.pivot? t = some (e, x) →
      (e.boundsOf x.leaving).BroughtBack p.primalTolerance (e.valueOf x.leaving)
        ((e.applyExchange t x).1.valueOf x.leaving) ∧
      (e.applyExchange t x).1.Balanced t ∧ (r.step t).engine = (e.performExchange t x).engine ∧
      ∀ factor, (e.applyExchange t x).1.factor.update x.position x.pivot = .ok factor →
        ((e.applyExchange t x).1.history.record x.entering).2 = false →
        (r.step t).engine.value = (e.applyExchange t x).1.value := by
  have ht := Job.wellFormed_of_build d.canonical_exact hbuild hp
  have hpivot := Parameters.pivotTolerance_pos hp
  have hrun := settles_iterate_step ht hpivot (Basis.valid_of_validate ht.program hbasis) k
  refine ⟨hrun.faithful.valuesSolved ht, (hrun.faithful.renewIfDue ht hpivot).valuesSolved ht,
    (hrun.faithful.conclude ht).valuesSolved ht, fun hgoes => (hrun.settled hgoes).valid, ?_⟩
  intro e x hstage hx
  have hsettled := hrun.settled hstage.ne_done
  obtain ⟨-, -, -, -, -, -, hadvance⟩ := hsettled.sound.of_pivot ht hx
  obtain ⟨he, hfits, hentered, hback⟩ := hsettled.of_pivot ht hpivot hx
  have hstep := engine_step_of_advance hstage hadvance
  refine ⟨hback, he.balanced_applyExchange ht hfits hentered, hstep, ?_⟩
  intro factor hupdate hhistory
  rw [hstep]
  exact Engine.value_performExchange hupdate hhistory

/-- The first basis change, after which the leaving variable stands at its bound. -/
theorem Run.values_at_boundaries_triangle : ∃ lp, Draft.triangle.build = .ok lp ∧
    (Basis.slack lp).validate lp = .ok () ∧
    let t : Job (Exact 0) := ⟨lp, .default⟩
    let r := (step t)^[2] (begin t (Basis.slack lp))
    r.engine.ValuesSolved t ∧ ∃ e x, r.engine.pivot? t = some (e, x) ∧
      (e.boundsOf x.leaving).BroughtBack t.parameters.primalTolerance (e.valueOf x.leaving)
        ((r.step t).engine.valueOf x.leaving) := by
  obtain ⟨lp, hbuild, hrun⟩ := exists_of_any_toOption (x := Draft.triangle.build)
    (P := fun lp => ((Basis.slack lp).validate lp).toOption.isSome &&
      let t : Job (Exact 0) := ⟨lp, .default⟩
      let r := (step t)^[2] (begin t (Basis.slack lp))
      decide (r.stage = .auxiliary) && (r.engine.factorValid && (r.engine.pivot? t).any fun s =>
        let e := (s.1.applyExchange t s.2).1
        (e.factor.update s.2.position s.2.pivot).toOption.any fun _ =>
          !(e.history.record s.2.entering).2))
    (by decide +kernel)
  rw [Bool.and_eq_true, Bool.and_eq_true, Bool.and_eq_true, Option.any_eq_true] at hrun
  obtain ⟨hbasis, hstage, hvalid, ⟨e, x⟩, hpivot, hupdate⟩ := hrun
  have hbasis := eq_ok_of_isSome hbasis
  have hstage := of_decide_eq_true hstage
  obtain ⟨factor, hupdate, hhistory⟩ := exists_of_any_toOption hupdate
  have hclaim := values_at_boundaries hbuild hbasis Parameters.validate_default 2
  obtain ⟨hback, -, -, hvalues⟩ := hclaim.2.2.2.2 e x (Or.inl hstage) hpivot
  have hvalues := hvalues factor hupdate (Bool.not_eq_true' _ |>.mp hhistory)
  refine ⟨lp, hbuild, hbasis, hclaim.1 hvalid, e, x, hpivot, ?_⟩
  rw [Engine.valueOf_congr hvalues]
  exact hback

end DualSimplex
