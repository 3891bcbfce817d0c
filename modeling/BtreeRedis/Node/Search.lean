import BtreeRedis.Node.Accounting

/-!
# Searching a basic node

`lowerBound` narrows the slot range with the hints, then bisects it comparing heads
before keys. On a well-formed node the result is the number of separators or keys
below the search key, with the flag telling whether the key is there.
-/

namespace BtreeRedis

open LexOrder SortedAssoc

namespace BTreeNode
variable {π : Type} [Payload π]

def searchHint (n : BTreeNode π) (keyHead lower upper : ℕ) : ℕ × ℕ :=
  if hintCount * 2 < n.count then
    let dist := upper / (hintCount + 1)
    let pos := n.hint.findIdx fun h => keyHead ≤ h
    let pos2 := pos + (n.hint.drop pos).findIdx fun h => h ≠ keyHead
    (pos * dist, if pos2 < hintCount then (pos2 + 1) * dist else upper)
  else (lower, upper)

/-- The bisection; `memcmp` and then the two lengths compare lexicographically. Each round halves
the range, so its length is fuel enough. -/
def searchLoop (slots : List (Slot π)) (key : Bytes) (keyHead : ℕ) : ℕ → ℕ → ℕ → ℕ × Bool
  | 0, lower, _ => (lower, false)
  | fuel + 1, lower, upper =>
    if lower < upper then
      let mid := (upper - lower) / 2 + lower
      match slots[mid]? with
      | none => (lower, false)
      | some s =>
        if keyHead < s.head then searchLoop slots key keyHead fuel lower mid
        else if s.head < keyHead then searchLoop slots key keyHead fuel (mid + 1) upper
        else if key < s.key then searchLoop slots key keyHead fuel lower mid
        else if s.key < key then searchLoop slots key keyHead fuel (mid + 1) upper
        else (mid, true)
    else (lower, false)

def lowerBound (n : BTreeNode π) (key : Bytes) : Except Fault (ℕ × Bool) := do
  ensure (key.take n.prefixLength = n.getPrefix.take key.length) .assertion
  ensure (n.prefixLength ≤ key.length) .undefined
  let key := key.drop n.prefixLength
  let keyHead := BtreeRedis.head key
  let (lower, upper) := n.searchHint keyHead 0 n.count
  pure (searchLoop n.slots key keyHead (upper - lower) lower upper)

section
omit [Payload π]

@[simp] theorem keys_content_length (n : BTreeNode π) : (keys n.content).length = n.count := by
  simp [keys]

end

structure Bracket (ks : List Bytes) (key : Bytes) (lower upper : ℕ) : Prop where
  le : lower ≤ upper
  upper_le : upper ≤ ks.length
  below : ∀ j (hj : j < ks.length), j < lower → ks[j] < key
  above : ∀ j (hj : j < ks.length), upper ≤ j → key < ks[j]

namespace Bracket
variable {ks : List Bytes} {key : Bytes} {lower upper : ℕ}

theorem all (ks : List Bytes) (key : Bytes) : Bracket ks key 0 ks.length :=
  ⟨Nat.zero_le _, le_rfl, fun _ _ h => absurd h (Nat.not_lt_zero _), fun _ hj h => absurd hj (by omega)⟩

theorem lower_mid (h : Bracket ks key lower upper) (hs : Ascending ks) {mid : ℕ} (hl : lower ≤ mid)
    (hm : mid < ks.length) (hk : key < ks[mid]) : Bracket ks key lower mid :=
  ⟨hl, hm.le, h.below, fun _ hj hmj => hk.trans_le (hs.getElem_le hmj hj)⟩

theorem mid_upper (h : Bracket ks key lower upper) (hs : Ascending ks) {mid : ℕ} (hu : mid < upper)
    (hm : mid < ks.length) (hk : ks[mid] < key) : Bracket ks key (mid + 1) upper :=
  ⟨hu, h.upper_le, fun _ _ hjm => (hs.getElem_le (Nat.lt_succ_iff.mp hjm) hm).trans_lt hk, h.above⟩

theorem closed (h : Bracket ks key lower lower) (hs : Ascending ks) :
    lower = lowerIndex ks key ∧ key ∉ ks := by
  refine ⟨eq_lowerIndex hs h.upper_le h.below fun j hj hlj => (h.above j hj hlj).le, fun hm => ?_⟩
  obtain ⟨j, hj, rfl⟩ := List.mem_iff_getElem.mp hm
  rcases Nat.lt_or_ge j lower with hjl | hjl
  · exact lt_irrefl _ (h.below j hj hjl)
  · exact lt_irrefl _ (h.above j hj hjl)

end Bracket

theorem lowerIndex_of_getElem_eq {ks : List Bytes} {key : Bytes} (hs : Ascending ks) {mid : ℕ}
    (hm : mid < ks.length) (hk : ks[mid] = key) : mid = lowerIndex ks key ∧ key ∈ ks := by
  subst hk
  exact ⟨eq_lowerIndex hs hm.le (fun _ _ h => hs.getElem_lt h hm) (fun _ hj h => hs.getElem_le h hj),
    List.getElem_mem _⟩

section
omit [Payload π]

theorem searchLoop_spec {n : BTreeNode π} (h : Ordered n) (key : Bytes) :
    ∀ (fuel lower upper : ℕ), upper - lower ≤ fuel → Bracket (keys n.content) key lower upper →
      searchLoop n.slots key (head key) fuel lower upper =
        (lowerIndex (keys n.content) key, decide (key ∈ keys n.content)) := by
  intro fuel
  induction fuel with
  | zero =>
    intro lower upper hf hb
    obtain rfl : lower = upper := by have := hb.le; omega
    obtain ⟨he, hn⟩ := hb.closed h.sorted
    simp [searchLoop, ← he, hn]
  | succ fuel ih =>
    intro lower upper hf hb
    unfold searchLoop
    split_ifs with hlu
    · have hle := hb.upper_le
      rw [keys_content_length, count] at hle
      have hmid : (upper - lower) / 2 + lower < n.slots.length := by omega
      have hmk : (upper - lower) / 2 + lower < (keys n.content).length := by
        rw [keys_content_length]
        exact hmid
      have hkey : (n.slots[(upper - lower) / 2 + lower]).key =
          (keys n.content)[(upper - lower) / 2 + lower] := by
        simp [content, keys, Slot.entry]
      have hhead := h.heads _ (List.getElem_mem hmid)
      simp only [List.getElem?_eq_getElem hmid, hhead]
      rw [hkey]
      split_ifs with h₁ h₂ h₃ h₄
      · exact ih _ _ (by omega) (hb.lower_mid h.sorted (by omega) hmk (lt_of_head_lt h₁))
      · exact ih _ _ (by omega) (hb.mid_upper h.sorted (by omega) hmk (lt_of_head_lt h₂))
      · exact ih _ _ (by omega) (hb.lower_mid h.sorted (by omega) hmk h₃)
      · exact ih _ _ (by omega) (hb.mid_upper h.sorted (by omega) hmk h₄)
      · obtain ⟨he, hm⟩ := lowerIndex_of_getElem_eq h.sorted hmk
          (le_antisymm (not_lt.mp h₃) (not_lt.mp h₄))
        rw [← he, decide_eq_true hm]
    · obtain rfl : lower = upper := by have := hb.le; omega
      obtain ⟨he, hn⟩ := hb.closed h.sorted
      simp [← he, hn]

theorem headAt_eq {n : BTreeNode π} (h : Ordered n) {i : ℕ} (hi : i < (keys n.content).length) :
    n.headAt i = head (keys n.content)[i] := by
  have hi' : i < n.slots.length := by simpa using hi
  rw [headAt, List.getElem?_eq_getElem hi', Option.map_some, Option.getD_some,
    h.heads _ (List.getElem_mem hi')]
  simp [content, keys, Slot.entry]

end

theorem hint_getElem {n : BTreeNode π} (h : WF n) (hne : n.slots ≠ []) {i : ℕ}
    (hi : i < n.hint.length) :
    ∃ hj : n.count / (hintCount + 1) * (i + 1) < (keys n.content).length,
      n.hint[i] = head (keys n.content)[n.count / (hintCount + 1) * (i + 1)] := by
  have hhint := h.hints hne
  have hi' : i < 16 := by simpa [hhint] using hi
  have hpos : 0 < n.count := List.length_pos_of_ne_nil hne
  have hj : n.count / (hintCount + 1) * (i + 1) < (keys n.content).length := by
    rw [keys_content_length]
    calc n.count / (hintCount + 1) * (i + 1) ≤ n.count / 17 * 16 := Nat.mul_le_mul_left _ (by omega)
      _ < n.count := by omega
  refine ⟨hj, ?_⟩
  rw [List.getElem_of_eq hhint, List.getElem_map, List.getElem_range]
  exact headAt_eq h.toOrdered hj

theorem samples_bracket {ks : List Bytes} (hs : Ascending ks) {f : Bytes → ℕ} (hf : Monotone f)
    {hint : List ℕ} {dist : ℕ} (hd : hint.length * dist ≤ ks.length)
    (hget : ∀ i (hi : i < hint.length), ∃ hj : dist * (i + 1) < ks.length, hint[i] = f ks[dist * (i + 1)])
    (key : Bytes) {pos pos2 : ℕ} (hpos : pos = hint.findIdx fun x => f key ≤ x)
    (hpos2 : pos2 = pos + (hint.drop pos).findIdx fun x => x ≠ f key) :
    Bracket ks key (pos * dist) (if pos2 < hint.length then (pos2 + 1) * dist else ks.length) ∧
      (0 < pos → ∃ h : pos * dist < ks.length, f ks[pos * dist] < f key) ∧
      (pos2 < hint.length → ∃ h : (pos2 + 1) * dist < ks.length, f key < f ks[(pos2 + 1) * dist]) := by
  have hle : pos ≤ hint.length := hpos ▸ List.findIdx_le_length
  have hlast : 0 < pos → ∃ h : pos * dist < ks.length, f ks[pos * dist] < f key := by
    intro hp0
    have hlt : getElem hint (pos - 1) (by omega) < f key := by
      have hi : pos - 1 < hint.findIdx fun x => decide (f key ≤ x) := by omega
      simpa using List.not_of_lt_findIdx hi
    obtain ⟨hk, he⟩ := hget (pos - 1) (by omega)
    rw [he] at hlt
    have hidx : dist * (pos - 1 + 1) = pos * dist := by rw [Nat.sub_add_cancel hp0, Nat.mul_comm]
    simp only [hidx] at hk hlt
    exact ⟨hk, hlt⟩
  have hfirst : pos2 < hint.length → ∃ h : (pos2 + 1) * dist < ks.length, f key < f ks[(pos2 + 1) * dist] := by
    intro hp2
    have hp1 : pos < hint.length := by omega
    have hge : f key ≤ hint[pos] := by
      have hd : decide (f key ≤ hint[pos]) = true := by
        subst hpos
        exact List.findIdx_getElem (w := hp1)
      exact of_decide_eq_true hd
    have hneq : hint[pos2] ≠ f key := by
      have hdl : (hint.drop pos).findIdx (fun x => x ≠ f key) < (hint.drop pos).length := by
        rw [List.length_drop]
        omega
      have hd : decide ((hint.drop pos)[(hint.drop pos).findIdx (fun x => x ≠ f key)] ≠ f key) = true :=
        List.findIdx_getElem (w := hdl)
      rw [decide_eq_true_eq, List.getElem_drop] at hd
      subst hpos2
      exact hd
    obtain ⟨hk₁, he₁⟩ := hget pos hp1
    obtain ⟨hk₂, he₂⟩ := hget pos2 hp2
    have hmono : hint[pos] ≤ hint[pos2] := by
      rw [he₁, he₂]
      exact hf (hs.getElem_le (Nat.mul_le_mul_left _ (by omega)) hk₂)
    have hgt : f key < f ks[dist * (pos2 + 1)] := by
      rw [← he₂]
      omega
    simp only [Nat.mul_comm dist] at hk₂ hgt
    exact ⟨hk₂, hgt⟩
  have hlt_of {a c : Bytes} (h : f a < f c) : a < c := lt_of_not_ge fun hn => absurd (hf hn) (by omega)
  have hbelow : ∀ j (hj : j < ks.length), j < pos * dist → ks[j] < key := by
    intro j hj hjp
    have hp0 : 0 < pos := Nat.pos_of_ne_zero fun e => by simp [e] at hjp
    obtain ⟨hk, hlt⟩ := hlast hp0
    exact (hs.getElem_le hjp.le hk).trans_lt (hlt_of hlt)
  refine ⟨?_, hlast, hfirst⟩
  split_ifs with hp2
  · obtain ⟨hk, hlt⟩ := hfirst hp2
    refine ⟨Nat.mul_le_mul_right _ (by omega), hk.le, hbelow, ?_⟩
    intro j hj hjp
    exact (hlt_of hlt).trans_le (hs.getElem_le hjp hj)
  · exact ⟨(Nat.mul_le_mul_right _ hle).trans hd, le_rfl, hbelow, fun j hj hjp => absurd hj (by omega)⟩

theorem searchHint_bracket {n : BTreeNode π} (h : WF n) (key : Bytes) :
    Bracket (keys n.content) key (n.searchHint (head key) 0 n.count).1
      (n.searchHint (head key) 0 n.count).2 := by
  have hlen := keys_content_length n
  unfold searchHint
  split_ifs with hc
  · have h16 : hintCount = 16 := rfl
    have hne : n.slots ≠ [] := List.length_pos_iff.mp (by change 0 < n.count; omega)
    have hhl : n.hint.length = hintCount := by rw [h.hints hne]; simp
    have hd : n.hint.length * (n.count / (hintCount + 1)) ≤ (keys n.content).length := by
      rw [hhl, hlen, h16]
      omega
    have hget := fun i hi => hint_getElem h hne (i := i) hi
    have hb := (samples_bracket h.sorted (fun _ _ hst => head_mono hst) hd hget key rfl rfl).1
    rw [hhl, hlen] at hb
    exact hb
  · have hb := Bracket.all (keys n.content) key
    rwa [hlen] at hb

theorem lowerBound_append {n : BTreeNode π} (h : WF n) (key : Bytes) :
    n.lowerBound (n.getPrefix ++ key) =
      .ok (lowerIndex (keys n.content) key, decide (key ∈ keys n.content)) := by
  have hlen := h.length_getPrefix
  have htake : (n.getPrefix ++ key).take n.prefixLength = n.getPrefix.take (n.getPrefix ++ key).length := by
    rw [← hlen, List.take_left, List.take_of_length_le]
    rw [List.length_append]
    exact Nat.le_add_right _ _
  have hle : n.prefixLength ≤ (n.getPrefix ++ key).length := by
    rw [List.length_append, hlen]
    exact Nat.le_add_right _ _
  have hdrop : (n.getPrefix ++ key).drop n.prefixLength = key := by
    rw [← hlen, List.drop_left]
  simp only [lowerBound, ensure_of htake, ensure_of hle, ok_bind, hdrop,
    searchLoop_spec h.toOrdered key _ _ _ le_rfl (searchHint_bracket h key)]
  rfl

theorem lowerBound_spec {n : BTreeNode π} (h : WF n) {key : Bytes}
    (hk : InFences n.getLowerFence n.getUpperFence key) :
    n.lowerBound key = .ok (lowerIndex (keys n.entries) key, decide (key ∈ keys n.entries)) := by
  have hsplit := h.prefix_append_drop hk
  have hloop := lowerBound_append h (key.drop n.prefixLength)
  have hidx : lowerIndex (keys n.entries) key =
      lowerIndex (keys n.content) (key.drop n.prefixLength) := by
    conv_lhs => rw [← hsplit, Ordered.keys_entries]
    exact lowerIndex_map (fun _ _ => append_lt_append_iff) _ _
  have hmem : key ∈ keys n.entries ↔ key.drop n.prefixLength ∈ keys n.content := by
    conv_lhs => rw [← hsplit, Ordered.keys_entries]
    simp
  rw [hsplit] at hloop
  rw [hloop, hidx, decide_eq_decide.mpr hmem]

end BTreeNode

end BtreeRedis
