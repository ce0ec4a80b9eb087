import MinRuby.Proofs.Run.WellFormed
import MinRuby.Proofs.Value.Equality

/-!
# The hashes of a run

A hash is empty when it is made, and changes by one entry at a time. So on every machine that programs lead to each hash has
pairwise different fingerprints, whatever the programs do.

* `Store.Keyed.change` — one change of a store.
* `Reached.keyed` — the machines that programs lead to.
-/

namespace MinRuby

theorem Store.Keyed.change {s s' : Store} (hs : s.Keyed) (h : s.Change s') : s'.Keyed := by
  cases h with
  | newArray | updateArray => exact hs
  | newHash =>
    intro a
    have hkept : (s.newHash .empty).2.hash a = s.hash a := by
      simp only [newHash, hash, Array.getElem?_push]
      split
      · next heq => simp [heq]
      · rfl
    rw [hkept]
    exact hs a
  | store a k e =>
    intro b
    by_cases hab : b = a ∧ b < s.hashes.size
    · obtain ⟨rfl, hlt⟩ := hab
      rw [hash_updateHash hlt]
      exact (hs b).insert k e
    · -- what stands there is another hash, or none
      have hkept : (s.updateHash a (·.insert k e)).hash b = s.hash b := by
        simp only [updateHash, hash, Array.getElem?_modify]
        split
        · next heq =>
          have hout : s.hashes[b]? = none := Array.getElem?_eq_none (Nat.le_of_not_lt fun hlt => hab ⟨heq.symm, hlt⟩)
          rw [hout]
          rfl
        · rfl
      rw [hkept]
      exact hs b

theorem keptByRuns_keyed : KeptByRuns fun s => s.Proper ∧ s.Keyed where
  proper hs := hs.1
  changed hs h := ⟨keptByRuns_proper.changed hs.1 h, hs.2.change h⟩
  defined hs hp := ⟨keptByRuns_proper.defined hs.1 hp, hs.2⟩

/-- On every machine that programs lead to, no hash has two entries with the same fingerprint. -/
theorem Reached.keyed {m : Machine} (h : Reached m) : m.store.Keyed :=
  (keptByRuns_keyed.of_reached ⟨Store.proper_empty, fun _ => OrderedTable.distinct_empty⟩ h).2

end MinRuby
