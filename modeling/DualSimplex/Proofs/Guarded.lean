import DualSimplex.Proofs.Lines

/-!
# Guarded runs

A read behind the end of an array gives a default here, a write there is dropped, and a
difference of counts stops at zero.  Guarded steps give nothing instead.  A computation of
which every step goes through when it is guarded does none of these.
-/

namespace DualSimplex

variable {β γ σ : Type} {xs : Array β} {i : Nat}

/-- Change an element, if it is there. -/
def guardedModify (xs : Array β) (i : Nat) (f : β → β) : Option (Array β) :=
  if i < xs.size then some (xs.modify i f) else none

/-- Write an element, if there is a place for it. -/
def guardedSet (xs : Array β) (i : Nat) (x : β) : Option (Array β) :=
  if i < xs.size then some (xs.setIfInBounds i x) else none

theorem getElem?_of_lt (h : i < xs.size) (x : β) : xs[i]? = some (xs.getD i x) := by
  rw [Array.getElem?_eq_getElem h, getD_eq_getElem h]

theorem guardedModify_of_lt (h : i < xs.size) (f : β → β) :
    guardedModify xs i f = some (xs.modify i f) :=
  if_pos h

theorem guardedSet_of_lt (h : i < xs.size) (x : β) :
    guardedSet xs i x = some (xs.setIfInBounds i x) :=
  if_pos h

theorem bind_eq_of_eq_some {o : Option β} {x : β} {f : β → Option γ} {r : Option γ}
    (ho : o = some x) (hf : f x = r) : o >>= f = r := by
  rw [ho]
  exact hf

theorem mapM_eq_some_map {f : β → Option γ} {g : β → γ} {l : List β}
    (h : ∀ x ∈ l, f x = some (g x)) : l.mapM f = some (l.map g) := by
  induction l with
  | nil => rfl
  | cons x l ih =>
    rw [List.mapM_cons, h x List.mem_cons_self, ih fun y hy => h y (List.mem_cons_of_mem x hy)]
    rfl

theorem findM?_eq_some_find? {p : β → Option Bool} {q : β → Bool} {l : List β}
    (h : ∀ x ∈ l, p x = some (q x)) : l.findM? p = some (l.find? q) := by
  induction l with
  | nil => rfl
  | cons x l ih =>
    have hrest : l.findM? p = some (l.find? q) := ih fun y hy => h y (List.mem_cons_of_mem x hy)
    rw [List.findM?, h x List.mem_cons_self, List.find?]
    cases q x with
    | true => rfl
    | false => exact hrest

/-- A fold goes through if each step does in the states that the steps before it lead to. -/
theorem foldlM_eq_some_foldl {f : σ → β → Option σ} {g : σ → β → σ} {l : List β}
    (Inv : List β → σ → Prop) {s : σ} (hstart : Inv [] s)
    (hstep : ∀ done x s, (done ++ [x]) <+: l → Inv done s →
      f s x = some (g s x) ∧ Inv (done ++ [x]) (g s x)) :
    l.foldlM f s = some (l.foldl g s) := by
  have hrest : ∀ rest done s, done ++ rest = l → Inv done s →
      rest.foldlM f s = some (rest.foldl g s) := by
    intro rest
    induction rest with
    | nil => exact fun _ _ _ _ => rfl
    | cons x rest ih =>
      intro done s hl hs
      rw [List.append_cons] at hl
      obtain ⟨hf, hs⟩ := hstep done x s ⟨rest, hl⟩ hs
      rw [List.foldlM_cons, hf]
      exact ih (done ++ [x]) (g s x) hl hs
  exact hrest l [] s rfl hstart

theorem foldlM_flatMap {f : σ → γ → Option σ} {g : β → List γ} {l : List β} {s : σ} :
    (l.flatMap g).foldlM f s = l.foldlM (fun s x => (g x).foldlM f s) s := by
  induction l generalizing s with
  | nil => rfl
  | cons x l ih =>
    rw [List.flatMap_cons, List.foldlM_append, List.foldlM_cons]
    simp only [ih]

theorem foldlM_congr {f g : σ → β → Option σ} {l : List β} {s : σ}
    (h : ∀ s, ∀ x ∈ l, f s x = g s x) : l.foldlM f s = l.foldlM g s := by
  induction l generalizing s with
  | nil => rfl
  | cons x l ih =>
    rw [List.foldlM_cons, List.foldlM_cons, h s x List.mem_cons_self]
    simp only [ih fun s y hy => h s y (List.mem_cons_of_mem x hy)]

/-- A fold goes through if every step does. -/
theorem foldlM_eq_some {f : σ → β → Option σ} {g : σ → β → σ} {l : List β} {s : σ}
    (h : ∀ s, ∀ x ∈ l, f s x = some (g s x)) : l.foldlM f s = some (l.foldl g s) :=
  (foldlM_congr h).trans List.foldlM_pure

end DualSimplex
