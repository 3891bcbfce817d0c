import Mathlib

/-!
# Regions carved out of a block from above

A bump allocator takes regions from the top of a block downwards, so that each new one lies
below all earlier ones. Regions may be given back at any place, which leaves holes but never
an overlap.
-/

namespace BtreeRedis

structure Region where
  offset : ℕ
  length : ℕ

namespace Region

/-- The addresses of a region; an empty one has none, wherever it is said to be. -/
def bytes (r : Region) : Set ℕ := Set.Ico r.offset (r.offset + r.length)

theorem bytes_empty (offset : ℕ) : (⟨offset, 0⟩ : Region).bytes = ∅ := Set.Ico_self offset

structure Carved (rs : List Region) (low high : ℕ) : Prop where
  inside : ∀ r ∈ rs, r.bytes ⊆ Set.Ico low high
  apart : rs.Pairwise fun r s => Disjoint r.bytes s.bytes

namespace Carved
variable {rs ss : List Region} {low high : ℕ}

theorem nil (low high : ℕ) : Carved [] low high := ⟨by simp, List.Pairwise.nil⟩

theorem lower (h : Carved rs low high) {l : ℕ} (hl : l ≤ low) : Carved rs l high :=
  ⟨fun r hr => (h.inside r hr).trans (Set.Ico_subset_Ico_left hl), h.apart⟩

theorem sublist (h : Carved rs low high) (hs : ss.Sublist rs) : Carved ss low high :=
  ⟨fun r hr => h.inside r (hs.subset hr), h.apart.sublist hs⟩

theorem perm (h : Carved rs low high) (hp : rs.Perm ss) : Carved ss low high :=
  ⟨fun r hr => h.inside r (hp.mem_iff.mpr hr),
    (hp.pairwise_iff (fun hrs => Disjoint.symm hrs)).mp h.apart⟩

theorem cons_empty (h : Carved rs low high) (offset : ℕ) : Carved (⟨offset, 0⟩ :: rs) low high := by
  have he := bytes_empty offset
  refine ⟨?_, List.pairwise_cons.mpr ⟨?_, h.apart⟩⟩
  · intro r hr
    rcases List.mem_cons.mp hr with rfl | hr
    · rw [he]
      exact Set.empty_subset _
    · exact h.inside r hr
  · intro r _
    rw [he]
    exact Set.empty_disjoint _

theorem of_ascending (hasc : rs.Pairwise fun r s => r.offset + r.length ≤ s.offset)
    (hlow : ∀ r ∈ rs, low ≤ r.offset) (hhigh : ∀ r ∈ rs, r.offset + r.length ≤ high) : Carved rs low high := by
  refine ⟨fun r hr => Set.Ico_subset_Ico (hlow r hr) (hhigh r hr), hasc.imp fun {r s} hle => ?_⟩
  rw [bytes, bytes, Set.Ico_disjoint_Ico]
  omega

theorem push (h : Carved rs low high) {len : ℕ} (hl : len ≤ low) (hh : low ≤ high) :
    Carved (⟨low - len, len⟩ :: rs) (low - len) high := by
  have hb : (⟨low - len, len⟩ : Region).bytes = Set.Ico (low - len) low := by
    rw [bytes, Nat.sub_add_cancel hl]
  refine ⟨?_, List.pairwise_cons.mpr ⟨?_, h.apart⟩⟩
  · intro r hr
    rcases List.mem_cons.mp hr with rfl | hr
    · rw [hb]
      exact Set.Ico_subset_Ico_right hh
    · exact (h.inside r hr).trans (Set.Ico_subset_Ico_left (Nat.sub_le _ _))
  · intro r hr
    rw [hb]
    apply Set.disjoint_of_subset_right (h.inside r hr)
    rw [Set.Ico_disjoint_Ico]
    omega

end Carved

end Region

end BtreeRedis
