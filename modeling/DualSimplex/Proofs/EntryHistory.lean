import DualSimplex.EntryHistory
import Mathlib.Data.List.DropRight

/-!
# What an entry history answers

A history keeps a bounded list, forgets the oldest variable when the list is full and starts
anew whenever it answers `true`.  What it answers can be said without the list: it counts the
variable among those that entered last, at most as many as the window holds and none from
before the last `true`.
-/

namespace DualSimplex

namespace EntryHistory

/-! ## A history over time -/

/-- The history after variables have entered one by one. -/
def after (h : EntryHistory) (entered : List Nat) : EntryHistory :=
  entered.foldl (fun h j => (h.record j).1) h

/-- The answers to variables that enter one by one. -/
def answers (h : EntryHistory) : List Nat → List Bool
  | [] => []
  | j :: js => (h.record j).2 :: (h.record j).1.answers js

/-- How many variables have entered since the last answer `true`, or since the history is
kept. -/
def sinceAlarm (h : EntryHistory) (entered : List Nat) : Nat :=
  ((h.answers entered).rtakeWhile fun answer => !answer).length

/-- The variables that are looked at when one enters, this one included. -/
def looked (h : EntryHistory) (j : Nat) : List Nat :=
  (if h.recent.length = h.window then h.recent.drop 1 else h.recent) ++ [j]

theorem record_eq (h : EntryHistory) (j : Nat) :
    h.record j = if h.threshold < (h.looked j).count j then ({ h with recent := [] }, true)
      else ({ h with recent := h.looked j }, false) := rfl

/-- The answer tells whether the variable is among the last ones too often. -/
theorem record_snd (h : EntryHistory) (j : Nat) :
    (h.record j).2 = decide (h.threshold < (h.looked j).count j) := by
  rw [record_eq]
  split <;> simp [*]

theorem record_recent (h : EntryHistory) (j : Nat) :
    (h.record j).1.recent = if (h.record j).2 then [] else h.looked j := by
  rw [record_eq]
  split <;> rfl

@[simp]
theorem record_window (h : EntryHistory) (j : Nat) : (h.record j).1.window = h.window := by
  rw [record_eq]
  split <;> rfl

@[simp]
theorem record_threshold (h : EntryHistory) (j : Nat) :
    (h.record j).1.threshold = h.threshold := by
  rw [record_eq]
  split <;> rfl

theorem after_concat (h : EntryHistory) (entered : List Nat) (j : Nat) :
    h.after (entered ++ [j]) = ((h.after entered).record j).1 :=
  List.foldl_concat _ _ _ _

theorem answers_concat (h : EntryHistory) (entered : List Nat) (j : Nat) :
    h.answers (entered ++ [j]) = h.answers entered ++ [((h.after entered).record j).2] := by
  induction entered generalizing h with
  | nil => rfl
  | cons i entered ih => exact congrArg (_ :: ·) (ih (h.record i).1)

@[simp]
theorem after_window (h : EntryHistory) (entered : List Nat) :
    (h.after entered).window = h.window := by
  induction entered using List.reverseRecOn with
  | nil => rfl
  | append_singleton entered j ih => rw [after_concat, record_window, ih]

@[simp]
theorem after_threshold (h : EntryHistory) (entered : List Nat) :
    (h.after entered).threshold = h.threshold := by
  induction entered using List.reverseRecOn with
  | nil => rfl
  | append_singleton entered j ih => rw [after_concat, record_threshold, ih]

@[simp]
theorem length_answers (h : EntryHistory) (entered : List Nat) :
    (h.answers entered).length = entered.length := by
  induction entered generalizing h with
  | nil => rfl
  | cons j entered ih => exact congrArg (· + 1) (ih (h.record j).1)

theorem sinceAlarm_le (h : EntryHistory) (entered : List Nat) :
    h.sinceAlarm entered ≤ entered.length := by
  rw [← h.length_answers entered]
  exact (List.rtakeWhile_suffix _ _).length_le

/-- An answer `true` sets the count back, any other raises it. -/
theorem sinceAlarm_concat (h : EntryHistory) (entered : List Nat) (j : Nat) :
    h.sinceAlarm (entered ++ [j]) =
      if ((h.after entered).record j).2 then 0 else h.sinceAlarm entered + 1 := by
  unfold sinceAlarm
  rw [answers_concat, List.rtakeWhile_concat]
  cases ((h.after entered).record j).2 <;> simp

/-! ## The window -/

theorem length_rtake {β : Type} (l : List β) (n : Nat) : (l.rtake n).length = min n l.length := by
  rw [List.rtake, List.length_drop]
  omega

/-- A variable enters a list of the last `min w c` ones.  The oldest goes only if the list is
full, so the list grows with `c` up to the window and slides from then on. -/
theorem looked_of_recent {h : EntryHistory} (hwindow : 0 < h.window) {entered : List Nat} {c : Nat}
    (hc : c ≤ entered.length) (hrecent : h.recent = entered.rtake (min h.window c)) (j : Nat) :
    h.looked j = (entered ++ [j]).rtake (min h.window (c + 1)) := by
  have hlength : h.recent.length = min h.window c := by
    rw [hrecent, length_rtake]
    omega
  unfold looked
  split
  case isTrue hfull =>
    have hle : h.window ≤ c := by omega
    obtain ⟨w, hw⟩ := Nat.exists_eq_succ_of_ne_zero hwindow.ne'
    have hdrop : h.recent.drop 1 = entered.rtake w := by
      rw [hrecent, Nat.min_eq_left hle, hw, List.rtake, List.rtake, List.drop_drop]
      congr 1
      omega
    rw [hdrop, Nat.min_eq_left (by omega), hw, List.rtake_concat_succ]
  case isFalse hroom =>
    have hlt : c < h.window := by omega
    rw [hrecent, Nat.min_eq_right hlt.le, Nat.min_eq_right hlt, List.rtake_concat_succ]

variable {window : Nat}

/-- The list is that of the last variables, as many as the window holds but none from before
the last `true`. -/
theorem recent_after (hwindow : 0 < window) (threshold : Nat) (entered : List Nat) :
    ((empty window threshold).after entered).recent =
      entered.rtake (min window ((empty window threshold).sinceAlarm entered)) := by
  induction entered using List.reverseRecOn with
  | nil => rw [List.rtake_nil]; rfl
  | append_singleton entered j ih =>
    rw [after_concat, record_recent, sinceAlarm_concat]
    split
    · rw [Nat.min_zero, List.rtake_zero]
    · have h := looked_of_recent (h := (empty window threshold).after entered)
        (by rwa [after_window]) (sinceAlarm_le _ entered) (by rwa [after_window]) j
      rwa [after_window] at h

theorem looked_after (hwindow : 0 < window) (threshold : Nat) (entered : List Nat) (j : Nat) :
    ((empty window threshold).after entered).looked j =
      (entered ++ [j]).rtake (min window ((empty window threshold).sinceAlarm entered + 1)) := by
  have h := looked_of_recent (h := (empty window threshold).after entered)
    (by rwa [after_window]) (sinceAlarm_le _ entered)
    (by rw [after_window]; exact recent_after hwindow threshold entered) j
  rwa [after_window] at h

/-- A history answers `true` exactly if the variable has entered more often than the threshold
allows among the last `min window k` ones, this one included, where `k` counts from the last
`true` on.  It never holds more variables than the window, also while one enters, so a threshold
that is not below the window is never exceeded. -/
theorem record_iff (hwindow : 0 < window) (threshold : Nat) (entered : List Nat) (j : Nat) :
    let h : EntryHistory := (empty window threshold).after entered
    let k := (empty window threshold).sinceAlarm entered + 1
    ((h.record j).2 = true ↔ threshold < ((entered ++ [j]).rtake (min window k)).count j) ∧
      h.recent.length ≤ window ∧ (h.looked j).length ≤ window ∧
      (window ≤ threshold → (h.record j).2 = false) := by
  intro h k
  have hlooked : h.looked j = (entered ++ [j]).rtake (min window k) :=
    looked_after hwindow threshold entered j
  have hlength : (h.looked j).length ≤ window := by
    rw [hlooked, length_rtake]
    omega
  have hanswer : (h.record j).2 = decide (threshold < (h.looked j).count j) := by
    rw [record_snd, after_threshold]
    rfl
  refine ⟨?_, ?_, hlength, fun hthreshold => ?_⟩
  · rw [hanswer, hlooked, decide_eq_true_iff]
  · rw [recent_after hwindow threshold entered, length_rtake]
    omega
  · have hcount : (h.looked j).count j ≤ (h.looked j).length := List.count_le_length
    rw [hanswer, decide_eq_false_iff_not]
    omega

/-- The window has forgotten the first time the variable entered, but twice is still too
often. -/
theorem record_iff_full :
    let h : EntryHistory := (empty 3 1).after [5, 6, 7, 5, 8]
    0 < 3 ∧ (h.record 5).2 = true ∧ h.recent.length ≤ 3 := by
  have h := record_iff (by decide : 0 < 3) 1 [5, 6, 7, 5, 8] 5
  exact ⟨by decide, h.1.mpr (by decide), h.2.1⟩

end EntryHistory
end DualSimplex
