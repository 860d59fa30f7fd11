import Mathlib.Data.List.Perm.Basic

/-! # Selecting, removing and bucketing

One pass over a list remembers the position and value of the best acceptable
element. Removal by position moves the last element into the hole, so it
preserves the list up to permutation only. Sorting a list into buckets by a
bounded number keeps its elements.
-/

namespace LowLevel

variable {α : Type*}

/-- The best element after reading one more, which stands at position `i`. -/
def keepBest (ok : α → Bool) (beats : α → α → Bool) (i : ℕ) (x : α) :
    Option (ℕ × α) → Option (ℕ × α)
  | none => if ok x then some (i, x) else none
  | some b => if ok x && beats x b.2 then some (i, x) else some b

/-- Scan a list from position `i`, keeping the best acceptable element found so far. -/
def scanBest (ok : α → Bool) (beats : α → α → Bool) :
    List α → ℕ → Option (ℕ × α) → Option (ℕ × α)
  | [], _, best => best
  | x :: l, i, best => scanBest ok beats l (i + 1) (keepBest ok beats i x best)

section scanBest

variable {ok : α → Bool} {beats : α → α → Bool}

def ScanState (ok : α → Bool) (beats : α → α → Bool) (l : List α) :
    Option (ℕ × α) → Prop
  | none => ∀ x ∈ l, ok x = false
  | some b => l[b.1]? = some b.2 ∧ ok b.2 = true ∧ ∀ x ∈ l, ok x = true → beats x b.2 = false

theorem ScanState.snoc {l : List α} {best : Option (ℕ × α)} (x : α)
    (hb : ∀ y, beats y y = false)
    (ht : ∀ x y z, beats y z = false → beats x z = true → beats y x = false)
    (h : ScanState ok beats l best) :
    ScanState ok beats (l ++ [x]) (keepBest ok beats l.length x best) := by
  cases best with
  | none =>
    by_cases hx : ok x = true
    · rw [keepBest, if_pos hx]
      refine ⟨by simp, hx, ?_⟩
      intro y hy hoky
      rcases List.mem_append.mp hy with hy | hy
      · rw [h y hy] at hoky; cases hoky
      · rw [List.mem_singleton.mp hy]; exact hb x
    · rw [keepBest, if_neg hx]
      intro y hy
      rcases List.mem_append.mp hy with hy | hy
      · exact h y hy
      · rw [List.mem_singleton.mp hy]; simpa using hx
  | some b =>
    obtain ⟨hget, hokb, hbest⟩ := h
    by_cases hx : (ok x && beats x b.2) = true
    · rw [keepBest, if_pos hx]
      obtain ⟨hx, hxb⟩ := Bool.and_eq_true_iff.mp hx
      refine ⟨by simp, hx, ?_⟩
      intro y hy hoky
      rcases List.mem_append.mp hy with hy | hy
      · exact ht _ _ _ (hbest y hy hoky) hxb
      · rw [List.mem_singleton.mp hy]; exact hb x
    · rw [keepBest, if_neg hx]
      refine ⟨?_, hokb, ?_⟩
      · rw [List.getElem?_append_left (List.getElem?_eq_some_iff.mp hget).1]; exact hget
      · intro y hy hoky
        rcases List.mem_append.mp hy with hy | hy
        · exact hbest y hy hoky
        · rw [List.mem_singleton.mp hy] at hoky ⊢
          simpa [hoky] using hx

theorem scanBest_state (ok : α → Bool) (hb : ∀ y, beats y y = false)
    (ht : ∀ x y z, beats y z = false → beats x z = true → beats y x = false)
    (l : List α) : ScanState ok beats l (scanBest ok beats l 0 none) := by
  have key : ∀ l₂ l₁ best, ScanState ok beats l₁ best →
      ScanState ok beats (l₁ ++ l₂) (scanBest ok beats l₂ l₁.length best) := by
    intro l₂
    induction l₂ with
    | nil =>
      intro l₁ best h
      simpa [scanBest] using h
    | cons x l₂ ih =>
      intro l₁ best h
      have := ih (l₁ ++ [x]) _ (h.snoc x hb ht)
      rw [List.append_assoc, List.length_append] at this
      exact this
  exact key l [] none (by simp [ScanState])

/-- An acceptable element that beats all others is what the scan finds. -/
theorem scanBest_congr {ok' : α → Bool} {l : List α} (h : ∀ x ∈ l, ok x = ok' x) (i : ℕ)
    (best : Option (ℕ × α)) : scanBest ok beats l i best = scanBest ok' beats l i best := by
  induction l generalizing i best with
  | nil => rfl
  | cons x l ih =>
    have hx : keepBest ok beats i x best = keepBest ok' beats i x best := by
      cases best <;> simp [keepBest, h x (by simp)]
    rw [scanBest, scanBest, hx]
    exact ih (fun y hy => h y (List.mem_cons_of_mem _ hy)) _ _

/-- A map that respects the two comparisons carries the scan along. -/
theorem scanBest_map {β : Type*} {ok' : β → Bool} {beats' : β → β → Bool} {f : α → β}
    {P : α → Prop} (hok : ∀ x, P x → ok' (f x) = ok x)
    (hbeats : ∀ x y, P x → P y → beats' (f x) (f y) = beats x y) {l : List α}
    (hl : ∀ x ∈ l, P x) (i : ℕ) (best : Option (ℕ × α)) (hbest : ∀ b, best = some b → P b.2) :
    scanBest ok' beats' (l.map f) i (best.map (Prod.map id f)) =
      (scanBest ok beats l i best).map (Prod.map id f) := by
  induction l generalizing i best with
  | nil => rfl
  | cons x l ih =>
    have hx := hl x (by simp)
    have hkeep : keepBest ok' beats' i (f x) (best.map (Prod.map id f)) =
        (keepBest ok beats i x best).map (Prod.map id f) := by
      cases best with
      | none =>
        simp only [Option.map_none, keepBest, hok x hx]
        split <;> rfl
      | some b =>
        have hb := hbest b rfl
        simp only [Option.map_some, keepBest, hok x hx, Prod.map_snd, hbeats x b.2 hx hb]
        split <;> rfl
    rw [List.map_cons, scanBest, scanBest, hkeep]
    apply ih fun y hy => hl y (List.mem_cons_of_mem _ hy)
    intro b hb
    cases best with
    | none =>
      simp only [keepBest] at hb
      split at hb
      · rw [← Option.some.inj hb]; exact hx
      · cases hb
    | some c =>
      simp only [keepBest] at hb
      split at hb
      · rw [← Option.some.inj hb]; exact hx
      · rw [← Option.some.inj hb]; exact hbest c rfl

theorem scanBest_eq_some (hb : ∀ y, beats y y = false)
    (ht : ∀ x y z, beats y z = false → beats x z = true → beats y x = false)
    {l : List α} {r : α} (hr : r ∈ l) (hok : ok r = true)
    (hbest : ∀ x ∈ l, ok x = true → x ≠ r → beats r x = true) :
    ∃ i, scanBest ok beats l 0 none = some (i, r) ∧ l[i]? = some r := by
  have hs := scanBest_state ok hb ht l
  cases hc : scanBest ok beats l 0 none with
  | none =>
    rw [hc] at hs
    rw [hs r hr] at hok; cases hok
  | some b =>
    rw [hc] at hs
    obtain ⟨hget, hokb, hmin⟩ := hs
    by_cases hbr : b.2 = r
    · exact ⟨b.1, by rw [← hbr], hbr ▸ hget⟩
    · have hmem : b.2 ∈ l := List.mem_of_getElem? hget
      have := hmin r hr hok
      rw [hbest _ hmem hokb hbr] at this; cases this

theorem scanBest_eq_none (hb : ∀ y, beats y y = false)
    (ht : ∀ x y z, beats y z = false → beats x z = true → beats y x = false) {l : List α} :
    scanBest ok beats l 0 none = none ↔ ∀ x ∈ l, ok x = false := by
  have hs := scanBest_state ok hb ht l
  constructor
  · intro hc
    rw [hc] at hs
    exact hs
  · intro hnone
    cases hc : scanBest ok beats l 0 none with
    | none => rfl
    | some b =>
      rw [hc] at hs
      have := hnone b.2 (List.mem_of_getElem? hs.1)
      rw [hs.2.1] at this; cases this

end scanBest

def swapRemove (l : List α) (i : ℕ) : List α :=
  match l.getLast? with
  | none => []
  | some b => (l.set i b).dropLast

theorem swapRemove_map {β : Type*} (f : α → β) (l : List α) (i : ℕ) :
    swapRemove (l.map f) i = (swapRemove l i).map f := by
  unfold swapRemove
  rw [List.getLast?_map]
  cases l.getLast? with
  | none => rfl
  | some b => simp [List.map_set]

theorem swapRemove_perm {l : List α} {i : ℕ} {x : α} (h : l[i]? = some x) :
    (x :: swapRemove l i).Perm l := by
  rcases List.eq_nil_or_concat l with rfl | ⟨l', b, rfl⟩
  · simp at h
  · rw [List.concat_eq_append] at *
    obtain ⟨hi, hx⟩ := List.getElem?_eq_some_iff.mp h
    rw [List.length_append, List.length_singleton] at hi
    have hs : swapRemove (l' ++ [b]) i = l'.set i b := by
      simp only [swapRemove, List.getLast?_append_cons, List.getLast?_singleton, List.set_append]
      split
      · simp
      · rename_i hlt
        obtain rfl : i = l'.length := by omega
        simp [List.set_eq_of_length_le (Nat.le_refl l'.length)]
    rw [hs]
    rcases Nat.lt_or_ge i l'.length with hlt | hge
    · rw [List.getElem_append_left hlt] at hx
      calc (x :: l'.set i b).Perm (x :: b :: l'.eraseIdx i) :=
            (List.set_perm_cons_eraseIdx hlt b).cons x
        _ |>.Perm (b :: x :: l'.eraseIdx i) := List.Perm.swap ..
        _ |>.Perm (b :: l') := (hx ▸ List.getElem_cons_eraseIdx_perm hlt).cons b
        _ |>.Perm (l' ++ [b]) := (List.perm_append_singleton b l').symm
    · obtain rfl : i = l'.length := by omega
      have hxb : x = b := by simpa using hx.symm
      rw [List.set_eq_of_length_le (Nat.le_refl _), hxb]
      exact (List.perm_append_singleton b l').symm

theorem set_perm {l : List α} {i : ℕ} {x : α} (h : l[i]? = some x) (y : α) :
    ∃ l', (x :: l').Perm l ∧ (y :: l').Perm (l.set i y) := by
  obtain ⟨hi, hx⟩ := List.getElem?_eq_some_iff.mp h
  exact ⟨l.eraseIdx i, hx ▸ List.getElem_cons_eraseIdx_perm hi,
    (List.set_perm_cons_eraseIdx hi y).symm⟩

theorem flatMap_insert_perm {f : ℕ → List α} {ps : List ℕ} (hn : ps.Nodup) {p : ℕ} (hp : p ∈ ps)
    (x : α) : (ps.flatMap fun q => if q = p then x :: f q else f q).Perm (x :: ps.flatMap f) := by
  induction ps with
  | nil => cases hp
  | cons q ps ih =>
    rw [List.nodup_cons] at hn
    simp only [List.flatMap_cons]
    rcases List.mem_cons.mp hp with rfl | hp
    · rw [if_pos rfl]
      have hrest : (ps.flatMap fun q => if q = p then x :: f q else f q) = ps.flatMap f := by
        apply List.flatMap_congr
        intro q hq
        rw [if_neg]
        rintro rfl
        exact hn.1 hq
      rw [hrest]
      exact List.Perm.refl _
    · rw [if_neg (by rintro rfl; exact hn.1 hp)]
      exact ((ih hn.2 hp).append_left (f q)).trans List.perm_middle

theorem flatMap_filter_perm (l : List α) (f : α → ℕ) {n : ℕ} (hl : ∀ x ∈ l, f x < n) :
    ((List.range n).flatMap fun p => l.filter (f · = p)).Perm l := by
  induction l with
  | nil => simp
  | cons x l ih =>
    have hx : f x ∈ List.range n := List.mem_range.mpr (hl x (by simp))
    have hfilter : ∀ p, (x :: l).filter (f · = p) =
        if p = f x then x :: l.filter (f · = p) else l.filter (f · = p) := by
      intro p
      by_cases hp : f x = p
      · simp [hp]
      · simp [hp, Ne.symm hp]
    simp only [hfilter]
    refine (flatMap_insert_perm List.nodup_range hx x).trans (List.Perm.cons x (ih ?_))
    exact fun y hy => hl y (List.mem_cons_of_mem _ hy)

end LowLevel
