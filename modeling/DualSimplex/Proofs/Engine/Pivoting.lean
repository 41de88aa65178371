import DualSimplex.Proofs.Engine.Iteration
import DualSimplex.Proofs.Engine.Moves

/-!
# Basis changes on the way to the next boundary

From one iteration boundary to the next there is one basis change at most.  It is read
off here before it is made, with the engine that makes it, so that statements about a
run can refer to it.
-/

namespace DualSimplex

open Scalar

variable {α : Type} [Scalar α]

/-- A value outside of the bounds has come to the bound that it violated. -/
def Interval.BroughtBack (b : Interval α) (tolerance before after : α) : Prop :=
  (∃ u, b.upper = .finite u ∧ u + tolerance < before ∧ after = u) ∨
  ∃ l, b.lower = .finite l ∧ before < l - tolerance ∧ after = l

namespace Engine

/-- The basis change that an iteration tries. -/
def exchange? (t : Job α) (e : Engine α) : Option (Engine α × Exchange α) :=
  (e.weights.choosePosition (e.infeasibilities t) e.basicIndex).bind fun position =>
    e.exchangeAt? t position ((e.infeasibilities t).getD position 0)

/-- The engine that makes a basis change which is tried.  It is not made if its element is
too small, or doubtful with factors that have been updated. -/
def accept? (t : Job α) (e : Engine α) (x : Exchange α) : Option (Engine α) :=
  if isDoubtful t x then
    if 0 < e.factor.updateCount || isTooSmall t x.pivot then none else some (e.note .pivotMismatch)
  else some e

/-- The basis change that is made on the way to the next boundary. -/
def pivot? (t : Job α) (e : Engine α) : Option (Engine α × Exchange α) :=
  match limitReached? t, e.renewIfDue t with
  | none, .going e =>
    (e.exchange? t).bind fun tried => (accept? t tried.1 tried.2).map fun e => (e, tried.2)
  | _, _ => none

variable {t : Job α} {e e' : Engine α} {x : Exchange α}

theorem accept_cases (h : accept? t e x = some e') : (e' = e ∨ e' = e.note .pivotMismatch) ∧
    ¬isTooSmall t x.pivot = true ∧ e.tryExchange t x = e'.performExchange t x := by
  unfold accept? at h
  unfold tryExchange
  split at h
  · rename_i hdoubtful
    split at h
    · exact absurd h nofun
    · rename_i hreliable
      obtain rfl := Option.some.inj h
      rw [Bool.or_eq_true, decide_eq_true_eq, not_or] at hreliable
      refine ⟨Or.inr rfl, hreliable.2, ?_⟩
      have hcurrent : ¬0 < (e.note .pivotMismatch).factor.updateCount := hreliable.1
      rw [if_pos hdoubtful]
      dsimp only
      rw [if_neg hcurrent, if_neg hreliable.2]
  · rename_i hreliable
    obtain rfl := Option.some.inj h
    refine ⟨Or.inl rfl, fun hsmall => hreliable ?_, if_neg hreliable⟩
    unfold isDoubtful
    rw [hsmall]
    rfl

/-- What is done instead of a basis change that is not made. -/
theorem tryExchange_of_not_accepted (h : accept? t e x = none) :
    e.tryExchange t x = (e.note .pivotMismatch).renewAndSettle t ∨
    e.tryExchange t x =
      (e.note .pivotMismatch).countRecovery.map fun e => e.relaxBound x.leaving := by
  unfold accept? at h
  unfold tryExchange
  split at h
  · rename_i hdoubtful
    split at h
    · rename_i hrejected
      rw [if_pos hdoubtful]
      dsimp only
      by_cases hupdated : 0 < (e.note .pivotMismatch).factor.updateCount
      · rw [if_pos hupdated]
        exact Or.inl rfl
      · rw [if_neg hupdated]
        have hsmall : isTooSmall t x.pivot = true :=
          (Bool.or_eq_true_iff.mp hrejected).resolve_left fun hc => hupdated (of_decide_eq_true hc)
        rw [if_pos hsmall]
        exact Or.inr rfl
    · exact absurd h nofun
  · exact absurd h nofun

variable [OrderedScalar α]

theorem Sound.decided_of_exchange (ht : t.WellFormed) (h : e.Sound t)
    (hx : e.exchange? t = some (e', x)) : e.Decided t e' x := by
  obtain ⟨position, hposition, hx⟩ := Option.bind_eq_some_iff.mp hx
  obtain ⟨hlt, hdelta, hviolated⟩ := h.violates_of_choosePosition hposition
  exact h.of_exchangeAt ht hlt hdelta hviolated hx

omit [OrderedScalar α] in
theorem iterate_of_exchange (hx : e.exchange? t = some (e', x)) :
    e.iterate t = (e'.tryExchange t x).toStep := by
  obtain ⟨position, hposition, hx⟩ := Option.bind_eq_some_iff.mp hx
  have hstep := iterateAt_eq (t := t) e position ((e.infeasibilities t).getD position 0)
  rw [hx] at hstep
  unfold Engine.iterate
  dsimp only
  rw [hposition]
  exact hstep

omit [OrderedScalar α] in
/-- Without a basis change to try nothing moves in an iteration. -/
theorem iterate_of_exchange_eq_none (hx : e.exchange? t = none) : e.iterate t = .solved e ∨
    ∃ position, (∃ ray, e.iterate t = .unbounded (e.priceRow t position).1 ray) ∨
      e.iterate t = .stopped (e.priceRow t position).1 .iterationLimit := by
  unfold Engine.iterate
  dsimp only
  cases hposition : e.weights.choosePosition (e.infeasibilities t) e.basicIndex with
  | none => exact Or.inl rfl
  | some position =>
    have hstep := iterateAt_eq (t := t) e position ((e.infeasibilities t).getD position 0)
    rw [Option.bind_eq_none_iff.mp hx position hposition] at hstep
    exact Or.inr ⟨position, hstep⟩

/-- A basis change that is made has been decided on after the renewal that was due, and it
is what happens until the next boundary. -/
theorem Sound.of_pivot (ht : t.WellFormed) (h : e.Sound t) (hx : e.pivot? t = some (e', x)) :
    ∃ e₁ e₂ : Engine α, e.renewIfDue t = .going e₁ ∧ e₁.Decided t e₂ x ∧
      (e' = e₂ ∨ e' = e₂.note .pivotMismatch) ∧ ¬isTooSmall t x.pivot = true ∧
      e.advance t = (e'.performExchange t x).toStep := by
  have hsound := h.renewIfDue ht
  unfold pivot? at hx
  unfold Engine.advance
  generalize e.renewIfDue t = p at hsound hx ⊢
  split at hx
  · rename_i e₁ hlimit
    obtain ⟨⟨e₂, y⟩, htried, hx⟩ := Option.bind_eq_some_iff.mp hx
    obtain ⟨e₃, haccept, hx⟩ := Option.map_eq_some_iff.mp hx
    obtain ⟨rfl, rfl⟩ := Prod.mk.inj hx
    obtain ⟨hengine, hlarge, hperform⟩ := accept_cases haccept
    have hsound : e₁.Sound t := hsound
    refine ⟨e₁, e₂, rfl, hsound.decided_of_exchange ht htried, hengine, hlarge, ?_⟩
    rw [hlimit]
    exact (iterate_of_exchange htried).trans (congrArg Progress.toStep hperform)
  · exact absurd hx nofun

/-! ## Where the leaving variable comes to -/

theorem Fits.valueOf_leaving (ht : t.WellFormed) (h : e.Sound t) (hx : e.Fits t x) :
    (e.applyExchange t x).1.valueOf x.leaving = e.target x := by
  obtain ⟨e₁, w, -, h₁, hsetting, -, heq⟩ := hx.exists_swap ht h
  have hx := hx.congr hsetting
  have htarget : e₁.target x = e.target x := by
    unfold Engine.target
    rw [boundsOf_congr hsetting]
  obtain ⟨hlowered, hentering⟩ := h₁.lowerAmounts hx
  have hleaving : (e₁.lowerBasicValues (e₁.amounts x)).basicAt x.position = x.leaving := by
    rw [basicAt_congr (setting_lowerBasicValues e₁ (e₁.amounts x))]
    exact hx.leaving_eq.symm
  have hne : x.entering ≠ x.leaving := by
    intro hc
    rw [hc, ← hleaving] at hentering
    exact hentering (hlowered.statusOf_basicAt hx.position_lt)
  rw [heq, ← htarget]
  show ((e₁.lowerBasicValues (e₁.amounts x)).swap x.position x.entering (e₁.leavingStatus x)
    ((e₁.valueOf x.leaving - e₁.target x) / x.pivot) (e₁.target x)).valueOf x.leaving = _
  rw [hlowered.valueOf_swap hx.position_lt hne, if_pos hleaving]

/-- The leaving variable comes to the bound that it violated when it was chosen. -/
theorem Decided.broughtBack (ht : t.WellFormed) {e₁ : Engine α} (hx : e.Decided t e₁ x)
    (h : e'.Sound t) (hfits : e'.Fits t x) (hbounds : e'.bounds = e.bounds)
    (hvalues : e'.value = e.value) :
    (e'.boundsOf x.leaving).BroughtBack t.parameters.primalTolerance (e'.valueOf x.leaving)
      ((e'.applyExchange t x).1.valueOf x.leaving) := by
  have hsame : e'.boundsOf = e.boundsOf := by
    unfold Engine.boundsOf
    rw [hbounds]
  obtain ⟨delta, rfl, hviolated, hdirection⟩ := hx.violates
  have hvalue := hfits.valueOf_leaving ht h
  unfold Engine.target at hvalue
  dsimp only at hvalue
  rw [hdirection, hsame] at hvalue
  rw [hvalue, hsame, valueOf_congr hvalues]
  rcases (e.boundsOf x.leaving).violated_of_sign ht.primalTolerance_pos hviolated with
    ⟨hsign, u, hu, hlt⟩ | ⟨hsign, l, hl, hlt⟩
  · refine Or.inl ⟨u, hu, hlt, ?_⟩
    rw [if_pos hsign, hu]
    rfl
  · refine Or.inr ⟨l, hl, hlt, ?_⟩
    rw [if_neg hsign, hl]
    rfl

omit [OrderedScalar α] in
/-- If the factors can be updated and nothing hints at a cycle, all that is done after the
basis change is to weigh the rows if need be, and to keep the records. -/
theorem performExchange_eq {factor : FactoredBasis α}
    (hupdate : (e.applyExchange t x).1.factor.update x.position x.pivot = .ok factor)
    (hhistory : ((e.applyExchange t x).1.history.record x.entering).2 = false) :
    e.performExchange t x = .going
      { traceObjective t (if (e.applyExchange t x).2 = .excessive
          then weighRows t { (e.applyExchange t x).1 with factor := factor }
          else { (e.applyExchange t x).1 with factor := factor }) with
        history := ((e.applyExchange t x).1.history.record x.entering).1 } := by
  unfold Engine.performExchange Engine.updateFactor
  dsimp only
  generalize (e.applyExchange t x).2 = quality
  generalize (e.applyExchange t x).1 = e₁ at hupdate hhistory ⊢
  rw [hupdate]
  have hnew : ∀ e₂ : Engine α, e₂.history = e₁.history →
      (e₂.traceObjective t).watchCycle t x.entering = .going { e₂.traceObjective t with
        history := (e₁.history.record x.entering).1 } := by
    intro e₂ hsame
    have htrace : (e₂.traceObjective t).history = e₂.history := by
      unfold Engine.traceObjective
      split
      · rfl
      · rfl
    unfold Engine.watchCycle
    dsimp only
    rw [htrace, hsame, if_neg (Bool.eq_false_iff.mp hhistory)]
  refine hnew _ ?_
  split
  · exact weighRows_keeps Engine.history (fun _ _ => rfl) (fun _ _ => rfl) _
  · rfl

omit [OrderedScalar α] in
/-- The next boundary has the values that the basis change has led to. -/
theorem value_performExchange {factor : FactoredBasis α}
    (hupdate : (e.applyExchange t x).1.factor.update x.position x.pivot = .ok factor)
    (hhistory : ((e.applyExchange t x).1.history.record x.entering).2 = false) :
    (e.performExchange t x).engine.value = (e.applyExchange t x).1.value := by
  rw [performExchange_eq hupdate hhistory]
  refine (value_congr (standing_traceObjective _)).trans ?_
  split
  · exact weighRows_keeps Engine.value (fun _ _ => rfl) (fun _ _ => rfl) _
  · rfl

end Engine

/-! ## Runs -/

theorem Run.engine_step_of_advance {t : Job α} {r : Run α} (hstage : r.stage.Iterates)
    {p : Progress α} (hadvance : r.engine.advance t = p.toStep) :
    (r.step t).engine = p.engine := by
  have hanswers := answers_step (t := t) hstage
  rw [hadvance] at hanswers
  generalize r.step t = r' at hanswers ⊢
  cases p with
  | going e =>
    change r.Answers t (.next e) r' at hanswers
    cases hanswers with
    | next => rfl
  | stopped e status =>
    change r.Answers t (.stopped e status) r' at hanswers
    cases hanswers with
    | stopped => rfl

end DualSimplex
