import Mathlib.Data.List.Induction

/-!
# Items received in parts

A sender turns items into parts and sends the parts one after another. A receiver
that has so far received some of them can act on the items of which it has all
parts, and these are a prefix of what was sent that only grows.
-/

namespace Parts

variable {α β : Type*} (parts : α → List β)

/-- The items that are done are those of which all parts have been received. -/
structure Reaches (items done : List α) (received : List β) : Prop where
  done_prefix : done <+: items
  whole : done.flatMap parts <+: received
  latest : ∀ full, full <+: items → full.flatMap parts <+: received → full <+: done

variable {parts} {items done : List α} {received : List β}

theorem exists_reaches (items : List α) (received : List β) :
    ∃ done, Reaches parts items done received := by
  induction items using List.reverseRecOn with
  | nil => exact ⟨[], List.prefix_rfl, List.nil_prefix, fun full hfull _ => hfull⟩
  | append_singleton items next ih =>
      by_cases hall : (items ++ [next]).flatMap parts <+: received
      · exact ⟨items ++ [next], List.prefix_rfl, hall, fun full hfull _ => hfull⟩
      · obtain ⟨done, hdone⟩ := ih
        refine ⟨done, hdone.done_prefix.trans (List.prefix_append _ _), hdone.whole, ?_⟩
        intro full hfull hwhole
        rcases List.prefix_concat_iff.mp hfull with rfl | hfull
        · exact absurd hwhole hall
        · exact hdone.latest full hfull hwhole

/-- **Nothing is taken back.** What has been received more comes up to no fewer items. -/
theorem Reaches.mono {done' : List α} {received' : List β}
    (hreaches : Reaches parts items done received)
    (hreaches' : Reaches parts items done' received') (hmore : received <+: received') :
    done <+: done' :=
  hreaches'.latest done hreaches.done_prefix (hreaches.whole.trans hmore)

/-- What has been received beyond the items that are done are some parts of the next. -/
theorem Reaches.eq_or_part (hreaches : Reaches parts items done received)
    (hreceived : received <+: items.flatMap parts) :
    received = done.flatMap parts ∨ ∃ next part, done ++ [next] <+: items ∧ part <+: parts next ∧
      part ≠ [] ∧ part ≠ parts next ∧ received = done.flatMap parts ++ part := by
  obtain ⟨rest, rfl⟩ := hreaches.done_prefix
  obtain ⟨part, rfl⟩ := hreaches.whole
  rw [List.flatMap_append, List.prefix_append_right_inj] at hreceived
  rcases rest with _ | ⟨next, rest⟩
  · rw [List.prefix_nil.mp hreceived, List.append_nil]
    exact .inl rfl
  · have hnext : done ++ [next] <+: done ++ next :: rest :=
      (List.prefix_append_right_inj _).mpr (List.prefix_append [next] rest)
    have hproper : ¬ parts next <+: part := by
      intro hwhole
      have hdone := hreaches.latest _ hnext (by
        rw [List.flatMap_append, List.flatMap_singleton]
        exact (List.prefix_append_right_inj _).mpr hwhole)
      have hlength := hdone.length_le
      rw [List.length_append, List.length_singleton] at hlength
      omega
    rw [List.flatMap_cons] at hreceived
    have hpart := (List.prefix_or_prefix_of_prefix hreceived
      (List.prefix_append _ _)).resolve_right hproper
    by_cases hpos : part = []
    · rw [hpos, List.append_nil]
      exact .inl rfl
    · refine .inr ⟨next, part, hnext, hpart, hpos, ?_, rfl⟩
      rintro rfl
      exact hproper List.prefix_rfl

end Parts
