import Mathlib.Order.Lattice
import Mathlib.Logic.Function.Basic
/-! Nodes that tell each other what they know, for any kind of knowledge that can be joined. After a
round through one hub, to it from everyone and from it to everyone, all know the same, and no less
than anyone knew before. -/
namespace ShardCounter.Gossip

variable {ι L : Type} [DecidableEq ι] [SemilatticeSup L]

def tell (known : ι → L) (pair : ι × ι) : ι → L :=
  Function.update known pair.2 (known pair.2 ⊔ known pair.1)

section tell

variable (known : ι → L) {source target i : ι}

@[simp] theorem tell_target :
    tell known (source, target) target = known target ⊔ known source :=
  Function.update_self ..

theorem tell_of_ne (h : i ≠ target) : tell known (source, target) i = known i :=
  Function.update_of_ne h ..

theorem le_tell (pair : ι × ι) : known ≤ tell known pair := by
  intro i
  rcases eq_or_ne i pair.2 with rfl | hne
  · exact le_sup_left.trans_eq (tell_target known).symm
  · exact (tell_of_ne known hne).ge

theorem le_foldl_tell (pairs : List (ι × ι)) : known ≤ pairs.foldl tell known := by
  induction pairs generalizing known with
  | nil => exact le_refl known
  | cons pair pairs ih => exact (le_tell known pair).trans (ih _)

end tell

variable {hub : ι} (known : ι → L)

theorem foldl_gather_of_ne (others : List ι) {i : ι} (h : i ≠ hub) :
    (others.map (·, hub)).foldl tell known i = known i := by
  induction others generalizing known with
  | nil => rfl
  | cons other others ih =>
    rw [List.map_cons, List.foldl_cons, ih, tell_of_ne known h]

theorem le_foldl_gather (others : List ι) {i : ι} (h : i ∈ others) :
    known i ≤ (others.map (·, hub)).foldl tell known hub := by
  induction others generalizing known with
  | nil => exact absurd h List.not_mem_nil
  | cons other others ih =>
    rw [List.map_cons, List.foldl_cons]
    rcases List.mem_cons.mp h with rfl | h
    · have htold : known i ≤ tell known (i, hub) hub := by
        rw [tell_target]
        exact le_sup_right
      exact htold.trans (le_foldl_tell _ _ hub)
    · exact (le_tell known _ i).trans (ih _ h)

theorem foldl_spread (others : List ι) (hle : ∀ i, known i ≤ known hub) {i : ι}
    (h : i ∈ others ∨ known i = known hub) :
    (others.map (hub, ·)).foldl tell known i = known hub := by
  induction others generalizing known with
  | nil => exact h.resolve_left List.not_mem_nil
  | cons other others ih =>
    have hother : tell known (hub, other) other = known hub := by
      rw [tell_target]
      exact sup_eq_right.mpr (hle other)
    have hhub : tell known (hub, other) hub = known hub := by
      rcases eq_or_ne hub other with rfl | hne
      · exact hother
      · exact tell_of_ne known hne
    have hnext : ∀ j, tell known (hub, other) j = known hub ∨
        tell known (hub, other) j = known j := by
      intro j
      rcases eq_or_ne j other with rfl | hne
      · exact .inl hother
      · exact .inr (tell_of_ne known hne)
    rw [List.map_cons, List.foldl_cons, ih, hhub]
    · intro j
      rw [hhub]
      rcases hnext j with hj | hj
      · exact hj.le
      · exact hj.trans_le (hle j)
    · rw [hhub]
      rcases h with h | h
      · rcases List.mem_cons.mp h with rfl | h
        · exact .inr hother
        · exact .inl h
      · exact .inr ((hnext i).elim id fun hi => hi.trans h)

/-- After a round through the hub all nodes know the same, and no less than any of them knew. -/
theorem foldl_round (others : List ι) (hall : ∀ i, i = hub ∨ i ∈ others) :
    ∃ all, (∀ i, known i ≤ all) ∧
      (others.map (·, hub) ++ others.map (hub, ·)).foldl tell known = fun _ => all := by
  have hhub : ∀ i, known i ≤ (others.map (·, hub)).foldl tell known hub := fun i =>
    (hall i).elim (fun hi => hi ▸ le_foldl_tell known _ i) (le_foldl_gather known others)
  have hle : ∀ i, (others.map (·, hub)).foldl tell known i ≤
      (others.map (·, hub)).foldl tell known hub := by
    intro i
    rcases eq_or_ne i hub with rfl | hne
    · exact le_refl _
    · rw [foldl_gather_of_ne known others hne]
      exact hhub i
  refine ⟨_, hhub, funext fun i => ?_⟩
  rw [List.foldl_append]
  exact foldl_spread _ others hle ((hall i).symm.imp_right fun hi => by rw [hi])

end ShardCounter.Gossip
