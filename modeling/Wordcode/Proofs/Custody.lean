import Wordcode.Proofs.KnownData
import Wordcode.Proofs.Locality
import Mathlib

namespace Wordcode

/-! # Custody

What a ledger keeps is out of reach: a computation that starts with known data never comes to it,
whatever it does. It may make dicts, scopes and functions, so the ledger may grow meanwhile.

* `Safe` computations make nothing that a ledger counts.
* `Tracks` is the general property.

For each, there is one rule for each way of putting computations together.
-/

/-! ## What makes nothing -/

/-- A computation that leaves a state covered by a ledger as such a state, and whose result is
known. -/
def Safe {σ α : Type} [HasStore σ] [HasReferences α] (S : Ledger) (x : EStateM Failure σ α) :
    Prop :=
  ∀ s, S.Covers s →
    (∀ a s', x s = .ok a s' → S.Covers s' ∧ Known S a) ∧ ∀ e s', x s = .error e s' → S.Covers s'

section

variable {σ α β : Type} [HasStore σ] [HasReferences α] [HasReferences β] {S : Ledger}

@[grind ←]
theorem safe_pure {a : α} (h : Known S a) : Safe S (pure a : EStateM Failure σ α) := by
  intro s hs
  constructor
  · intro a' s' hrun
    cases hrun
    exact ⟨hs, h⟩
  · intro e s' hrun
    cases hrun

@[grind .]
theorem safe_throw (e : Failure) : Safe S (throw e : EStateM Failure σ α) := by
  intro s hs
  constructor
  · intro a s' hrun
    cases hrun
  · intro e' s' hrun
    cases hrun
    exact hs

/-- One safe computation after another one: what the first gives is known to the second. -/
@[grind ←]
theorem Safe.bind {x : EStateM Failure σ α} {k : α → EStateM Failure σ β} (hx : Safe S x)
    (hk : ∀ a, Known S a → Safe S (k a)) : Safe S (x >>= k) := by
  intro s hs
  cases hrun : x s with
  | error e s₁ =>
      rw [bind_of_error hrun]
      constructor
      · intro b s' h
        cases h
      · intro e' s' h
        cases h
        exact (hx s hs).2 e s₁ hrun
  | ok a s₁ =>
      obtain ⟨hs₁, ha⟩ := (hx s hs).1 a s₁ hrun
      rw [bind_of_ok hrun]
      exact hk a ha s₁ hs₁

/-- Reading the state gives a state that the ledger covers. -/
@[grind ←]
theorem safe_get_bind {k : σ → EStateM Failure σ β} (hk : ∀ s, S.Covers s → Safe S (k s)) :
    Safe S (get >>= k) := by
  intro s hs
  have hrun : (get : EStateM Failure σ σ) s = .ok s s := rfl
  rw [bind_of_ok hrun]
  exact hk s hs s hs

/-- A covered state is known. -/
theorem safe_get : Safe S (get : EStateM Failure σ σ) := by
  intro s hs
  constructor
  · intro a s' h
    cases h
    exact ⟨hs, hs.known⟩
  · intro e s' h
    cases h

/-- A change that keeps states covered, with a known result. -/
theorem safe_modifyGet {f : σ → α × σ} (h : ∀ s, S.Covers s → Known S (f s).1 ∧ S.Covers (f s).2) :
    Safe S (modifyGet f : EStateM Failure σ α) := by
  intro s hs
  obtain ⟨ha, hs'⟩ := h s hs
  constructor
  · intro a s' hrun
    cases hrun
    exact ⟨hs', ha⟩
  · intro e s' hrun
    cases hrun

theorem safe_modify {f : σ → σ} (h : ∀ s, S.Covers s → S.Covers (f s)) :
    Safe S (modify f : EStateM Failure σ PUnit) :=
  safe_modifyGet fun s hs => ⟨known_inert (), h s hs⟩

/-- A failure tells nothing about the state but that it is covered. -/
@[grind ←]
theorem Safe.handle {x : EStateM Failure σ α} {h : Failure → EStateM Failure σ α}
    (hx : Safe S x) (hh : ∀ e, Safe S (h e)) : Safe S (tryCatch x h) := by
  intro s hs
  cases hrun : x s with
  | ok a s₁ =>
      rw [tryCatch_of_ok hrun]
      constructor
      · intro a' s' h'
        cases h'
        exact (hx s hs).1 a s₁ hrun
      · intro e s' h'
        cases h'
  | error e s₁ =>
      rw [tryCatch_of_error hrun]
      exact hh e s₁ ((hx s hs).2 e s₁ hrun)

/-- Going through a known list, with a known result so far. -/
theorem safe_foldlM {f : β → α → EStateM Failure σ β}
    (h : ∀ b a, Known S b → Known S a → Safe S (f b a)) {as : List α} (has : Known S as) {b : β}
    (hb : Known S b) : Safe S (as.foldlM f b) := by
  induction as generalizing b with
  | nil => exact safe_pure hb
  | cons a as ih =>
      rw [known_cons] at has
      rw [List.foldlM_cons]
      exact (h b a hb has.1).bind fun b' hb' => ih has.2 hb'

/-- Results for the elements of a known list. -/
theorem safe_mapM {f : α → EStateM Failure σ β} (h : ∀ a, Known S a → Safe S (f a)) {as : List α}
    (has : Known S as) : Safe S (as.mapM f) := by
  induction as with
  | nil => exact safe_pure known_nil
  | cons a as ih =>
      rw [known_cons] at has
      rw [List.mapM_cons]
      refine (h a has.1).bind fun b hb => (ih has.2).bind fun bs hbs => safe_pure ?_
      exact (known_cons b bs).mpr ⟨hb, hbs⟩

end

/-! ## What may make something -/

/-- A computation that leaves a state covered by a ledger as one that is covered by the same or a
later ledger, to which the result is related. -/
def TracksTo {σ α : Type} [HasStore σ] (S : Ledger) (post : Ledger → α → Prop)
    (x : EStateM Failure σ α) : Prop :=
  ∀ s, S.Covers s →
    (∀ a s', x s = .ok a s' → ∃ T, S.Extends T ∧ T.Covers s' ∧ post T a) ∧
      ∀ e s', x s = .error e s' → ∃ T, S.Extends T ∧ T.Covers s'

/-- The result is known to the later ledger. -/
def Tracks {σ α : Type} [HasStore σ] [HasReferences α] (S : Ledger) (x : EStateM Failure σ α) :
    Prop :=
  TracksTo S (fun T a => Known T a) x

section

variable {σ α β : Type} [HasStore σ] [HasReferences α] [HasReferences β] {S : Ledger}

/-- A change that keeps states covered by a later ledger. -/
theorem tracksTo_modifyGet {γ : Type} {post : Ledger → γ → Prop} {f : σ → γ × σ}
    (h : ∀ s, S.Covers s → ∃ T, S.Extends T ∧ T.Covers (f s).2 ∧ post T (f s).1) :
    TracksTo S post (modifyGet f : EStateM Failure σ γ) := by
  intro s hs
  constructor
  · intro a s' hrun
    cases hrun
    exact h s hs
  · intro e s' hrun
    cases hrun

theorem tracksTo_pure {γ : Type} {post : Ledger → γ → Prop} {c : γ} (h : post S c) :
    TracksTo S post (pure c : EStateM Failure σ γ) := by
  intro s hs
  constructor
  · intro a s' hrun
    cases hrun
    exact ⟨S, .refl S, hs, h⟩
  · intro e s' hrun
    cases hrun

theorem tracksTo_throw {γ : Type} {post : Ledger → γ → Prop} (e : Failure) :
    TracksTo S post (throw e : EStateM Failure σ γ) := by
  intro s hs
  constructor
  · intro a s' hrun
    cases hrun
  · intro e' s' hrun
    cases hrun
    exact ⟨S, .refl S, hs⟩

/-- A result that is related in one way is related in any wider one. -/
theorem TracksTo.mono {γ : Type} {post post' : Ledger → γ → Prop} {x : EStateM Failure σ γ}
    (hx : TracksTo S post x) (h : ∀ T a, post T a → post' T a) : TracksTo S post' x := by
  intro s hs
  refine ⟨fun a s' hrun => ?_, (hx s hs).2⟩
  obtain ⟨T, hST, hs', ha⟩ := (hx s hs).1 a s' hrun
  exact ⟨T, hST, hs', h T a ha⟩

/-- One tracked computation after another one. The second is tracked under the ledger that the first
has left. -/
theorem TracksTo.bind {γ δ : Type} {mid : Ledger → γ → Prop} {post : Ledger → δ → Prop}
    {x : EStateM Failure σ γ} {k : γ → EStateM Failure σ δ} (hx : TracksTo S mid x)
    (hk : ∀ T a, S.Extends T → mid T a → TracksTo T post (k a)) : TracksTo S post (x >>= k) := by
  intro s hs
  -- a failure of the first part is the whole one's, and has kept to a ledger of its own
  cases hrun : x s with
  | error e s₁ =>
      rw [bind_of_error hrun]
      constructor
      · intro b s' h
        cases h
      · intro e' s' h
        cases h
        exact (hx s hs).2 e s₁ hrun
  | ok a s₁ =>
      obtain ⟨T, hST, hs₁, ha⟩ := (hx s hs).1 a s₁ hrun
      rw [bind_of_ok hrun]
      constructor
      · intro b s' h
        obtain ⟨U, hTU, hs', hb⟩ := (hk T a hST ha s₁ hs₁).1 b s' h
        exact ⟨U, hST.trans hTU, hs', hb⟩
      · intro e s' h
        obtain ⟨U, hTU, hs'⟩ := (hk T a hST ha s₁ hs₁).2 e s' h
        exact ⟨U, hST.trans hTU, hs'⟩

/-- What is safe makes nothing: the ledger stays the same. -/
@[grind ←]
theorem Safe.tracks {x : EStateM Failure σ α} (hx : Safe S x) : Tracks S x := by
  intro s hs
  constructor
  · intro a s' hrun
    obtain ⟨hs', ha⟩ := (hx s hs).1 a s' hrun
    exact ⟨S, .refl S, hs', ha⟩
  · intro e s' hrun
    exact ⟨S, .refl S, (hx s hs).2 e s' hrun⟩

theorem tracks_pure {a : α} (h : Known S a) : Tracks S (pure a : EStateM Failure σ α) :=
  (safe_pure h).tracks

theorem tracks_throw (e : Failure) : Tracks S (throw e : EStateM Failure σ α) :=
  (safe_throw e).tracks

/-- The same, when the first result is known. -/
@[grind ←]
theorem Tracks.bind {x : EStateM Failure σ α} {k : α → EStateM Failure σ β} (hx : Tracks S x)
    (hk : ∀ T a, S.Extends T → Known T a → Tracks T (k a)) : Tracks S (x >>= k) :=
  TracksTo.bind hx hk

/-- What makes nothing does not change the ledger. -/
theorem Safe.andThen {γ : Type} {post : Ledger → γ → Prop} {x : EStateM Failure σ α}
    {k : α → EStateM Failure σ γ} (hx : Safe S x)
    (hk : ∀ a, Known S a → TracksTo S post (k a)) : TracksTo S post (x >>= k) := by
  intro s hs
  cases hrun : x s with
  | error e s₁ =>
      rw [bind_of_error hrun]
      constructor
      · intro b s' h
        cases h
      · intro e' s' h
        cases h
        exact ⟨S, .refl S, (hx s hs).2 e s₁ hrun⟩
  | ok a s₁ =>
      obtain ⟨hs₁, ha⟩ := (hx s hs).1 a s₁ hrun
      rw [bind_of_ok hrun]
      exact hk a ha s₁ hs₁

/-- A check that comes first. -/
theorem Tracks.guarded {c : Prop} [Decidable c] {check : EStateM Failure σ PUnit}
    {x : EStateM Failure σ α} (hcheck : Safe S check) (hx : Tracks S x) :
    Tracks S (if c then check >>= fun _ => x else x) := by
  split
  · exact Safe.andThen hcheck fun _ _ => hx
  · exact hx

@[grind ←]
theorem Tracks.map {x : EStateM Failure σ α} {f : α → β} (hx : Tracks S x)
    (hf : ∀ T a, S.Extends T → Known T a → Known T (f a)) : Tracks S (f <$> x) :=
  hx.bind fun T a hST ha => tracks_pure (hf T a hST ha)

/-- A handler begins with what was made before the failure. -/
theorem Tracks.handle {x : EStateM Failure σ α} {h : Failure → EStateM Failure σ α}
    (hx : Tracks S x) (hh : ∀ T e, S.Extends T → Tracks T (h e)) : Tracks S (tryCatch x h) := by
  intro s hs
  -- the handler starts where the failing part stopped, with the ledger grown till then
  cases hrun : x s with
  | ok a s₁ =>
      rw [tryCatch_of_ok hrun]
      constructor
      · intro a' s' h'
        cases h'
        exact (hx s hs).1 a s₁ hrun
      · intro e s' h'
        cases h'
  | error e s₁ =>
      obtain ⟨T, hST, hs₁⟩ := (hx s hs).2 e s₁ hrun
      rw [tryCatch_of_error hrun]
      constructor
      · intro a s' h'
        obtain ⟨U, hTU, hs', ha⟩ := (hh T e hST s₁ hs₁).1 a s' h'
        exact ⟨U, hST.trans hTU, hs', ha⟩
      · intro e' s' h'
        obtain ⟨U, hTU, hs'⟩ := (hh T e hST s₁ hs₁).2 e' s' h'
        exact ⟨U, hST.trans hTU, hs'⟩

/-- A computation on each item in turn. -/
theorem Tracks.mapM {f : α → EStateM Failure σ β}
    (hf : ∀ T a, S.Extends T → Known T a → Tracks T (f a)) {as : List α} (has : Known S as) :
    Tracks S (as.mapM f) := by
  -- each item may add to the ledger, so the rest starts from a later one
  induction as generalizing S with
  | nil => exact tracks_pure known_nil
  | cons a as ih =>
      rw [known_cons] at has
      rw [List.mapM_cons]
      refine (hf S a (.refl _) has.1).bind fun T b hST hb => ?_
      refine (ih (fun U a hTU => hf U a (hST.trans hTU)) (has.2.mono hST)).bind ?_
      exact fun U bs hTU hbs => tracks_pure ((known_cons b bs).mpr ⟨hb.mono hTU, hbs⟩)

end

/-! ## Sorting -/

section

variable {σ α : Type} [HasStore σ] [HasReferences α] {S : Ledger}
  {less : α → α → EStateM Failure σ Bool}
  (hless : ∀ x y, Known S x → Known S y → Safe S (less x y))
include hless

/-- Sorting moves what is known, wherever the comparison puts it. -/
theorem safe_insert {x : α} {run : List α} (hx : Known S x) (hrun : Known S run) :
    Safe S (Sort.insert less x run) := by
  induction run with
  | nil => exact safe_pure (by simpa using hx)
  | cons y ys ih =>
      rw [known_cons] at hrun
      rw [Sort.insert]
      refine (hless x y hx hrun.1).bind fun b _ => ?_
      split
      · exact (ih hrun.2).bind fun zs hzs => safe_pure (by simp [hrun.1, hzs])
      · exact safe_pure (by simp [hx, hrun])

theorem safe_insertion {xs : List α} (hxs : Known S xs) : Safe S (Sort.insertion less xs) := by
  unfold Sort.insertion
  refine (safe_foldlM (fun run x hrun hx => safe_insert hless hx hrun) hxs known_nil).bind ?_
  exact fun run hrun => safe_pure (hrun.subset (by simp))

theorem safe_lessAt {xs : Array α} (hxs : Known S xs) (i j : Nat) :
    Safe S (Sort.lessAt less xs i j) := by
  rw [known_array] at hxs
  unfold Sort.lessAt
  split
  next x y hx hy =>
    exact hless x y (hxs x (Array.mem_of_getElem? hx)) (hxs y (Array.mem_of_getElem? hy))
  next => exact safe_pure (known_inert _)

omit hless in
theorem safe_search {test : Nat → EStateM Failure σ Bool} (htest : ∀ i, Safe S (test i))
    (fuel low high : Nat) : Safe S (Sort.search test fuel low high) := by
  induction fuel generalizing low high with
  | zero => exact safe_pure (known_inert _)
  | succ fuel ih =>
      rw [Sort.search]
      grind

/-- Merging takes its items from the two runs. -/
theorem safe_merge (fuel : Nat) {xs ys : List α} (hxs : Known S xs) (hys : Known S ys) :
    Safe S (Sort.merge less fuel xs ys) := by
  induction fuel generalizing xs ys with
  | zero => exact safe_pure ((known_append xs ys).mpr ⟨hxs, hys⟩)
  | succ fuel ih =>
      have hall := (known_append xs ys).mpr ⟨hxs, hys⟩
      have hlessAt (i j : Nat) := safe_lessAt hless (known_toArray hall) i j
      unfold Sort.merge
      split
      · exact safe_pure hall
      · exact safe_pure hys
      · exact safe_pure hxs
      next x _ _ =>
        have hx : Known S x := ((known_cons _ _).mp hxs).1
        refine (safe_search (fun i => ?_) _ _ _).bind fun i _ => safe_pure (hall.subset ?_)
        · split
          next y hy => exact hless y x (hys.of_toArray hy) hx
          next => exact safe_pure (known_inert false)
        · grind [List.mem_of_mem_take, List.mem_of_mem_drop]
      next y _ _ _ =>
        have hy : Known S y := ((known_cons _ _).mp hys).1
        refine (safe_search (fun i => ?_) _ _ _).bind fun i _ => safe_pure (hall.subset ?_)
        · split
          next x hx =>
            exact (hless y x hy (hxs.of_toArray hx)).bind fun b _ => safe_pure (known_inert _)
          next => exact safe_pure (known_inert false)
        · grind [List.mem_of_mem_take, List.mem_of_mem_drop]
      next hfuel _ _ _ _ =>
        cases hfuel
        -- wherever the runs are cut, both halves are made of parts of them
        extract_lets all table size split middle n
        generalize (if middle < split then (n - size, middle) else (0, split)) = bounds
        have htest (c : Nat) : Safe S (do return !(← Sort.lessAt less table (n - 1 - c) c)) :=
          (hlessAt _ c).bind fun b _ => safe_pure (known_inert (!b))
        refine (safe_search htest _ _ _).bind fun start _ => ?_
        refine (ih (hall.take _) ((hall.drop _).take _)).bind fun lower hlower => ?_
        refine (ih ((hall.drop _).take _) (hall.drop _)).bind fun upper hupper => ?_
        exact safe_pure ((known_append _ _).mpr ⟨hlower, hupper⟩)

theorem safe_mergePairs {runs : List (List α)} (hruns : Known S runs) :
    Safe S (Sort.mergePairs less runs) := by
  fun_induction Sort.mergePairs less runs with
  | case1 xs ys rest ih =>
      simp only [known_cons] at hruns
      obtain ⟨hxs, hys, hrest⟩ := hruns
      refine (safe_merge hless _ hxs hys).bind fun merged hmerged => ?_
      exact (ih hrest).bind fun runs hruns => safe_pure (by simp [hmerged, hruns])
  | case2 runs => exact safe_pure hruns

theorem safe_mergeAll (fuel : Nat) {runs : List (List α)} (hruns : Known S runs) :
    Safe S (Sort.mergeAll less fuel runs) := by
  induction fuel generalizing runs with
  | zero => exact safe_pure (known_flatten hruns)
  | succ fuel ih =>
      cases runs with
      | nil => exact safe_pure known_nil
      | cons run runs =>
          cases runs with
          | nil => exact safe_pure ((known_cons _ _).mp hruns).1
          | cons run' runs => exact (safe_mergePairs hless hruns).bind fun runs hruns => ih hruns

omit [HasStore σ] hless in
theorem known_blocks (fuel : Nat) {xs : List α} (hxs : Known S xs) :
    Known S (Sort.blocks fuel xs) := by
  induction fuel generalizing xs with
  | zero => exact known_nil
  | succ fuel ih =>
      rw [Sort.blocks]
      split
      · exact known_nil
      · exact (known_cons _ _).mpr ⟨hxs.take _, ih (hxs.drop _)⟩

/-- The whole sort. -/
theorem safe_stable {xs : List α} (hxs : Known S xs) : Safe S (Sort.stable less xs) := by
  unfold Sort.stable
  refine (safe_mapM (fun xs hxs => safe_insertion hless hxs) (known_blocks _ hxs)).bind ?_
  exact fun runs hruns => safe_mergeAll hless _ hruns

end

end Wordcode
