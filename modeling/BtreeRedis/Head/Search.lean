import BtreeRedis.Head.Node
import BtreeRedis.Node.Update

/-!
# Routing in a head node

Comparing a needle with the stored numbers is comparing the byte strings, since the padded
bytes decide first and the length byte breaks the ties that the zeros leave. The index found
is therefore the lower bound among the complete separators.
-/

namespace BtreeRedis

open LexOrder SortedAssoc BigEndian

theorem HeadType.size_pos (T : HeadType) : 0 < T.size := by
  cases T <;> decide

theorem HeadType.size_lt (T : HeadType) : T.size < 256 := by
  cases T <;> decide

theorem value_append_byte (s : Bytes) {l : ℕ} (h : l < 256) : value (s ++ [Fin.ofNat 256 l]) = value s * 256 + l := by
  rw [value_append, value_cons, value_nil, Fin.val_ofNat, Nat.mod_eq_of_lt h]
  simp

theorem makeNeedleHead_eq (T : HeadType) (k : Bytes) :
    makeNeedleHead T k = padded k (T.size - 1) * 256 + min k.length T.size := by
  have hpos := T.size_pos
  have hlt := T.size_lt
  unfold makeNeedleHead
  split_ifs with h
  · rw [value_append_byte _ (by omega), value_pad (by omega), Nat.min_eq_left h.le]
  · have hz : T.size - 1 - k.length = 0 := by omega
    rw [value_append_byte _ hlt, padded, hz, pow_zero, Nat.mul_one, Nat.min_eq_right (not_lt.mp h)]

theorem makeSepHead_eq_some {T : HeadType} {s : Bytes} {h : ℕ} :
    makeSepHead T s = some h ↔ s.length < T.size ∧ makeNeedleHead T s = h := by
  unfold makeSepHead makeNeedleHead
  split_ifs with hs <;> simp [hs]

theorem makeNeedleHead_le_iff {T : HeadType} {k s : Bytes} (hs : s.length < T.size) :
    makeNeedleHead T k ≤ makeNeedleHead T s ↔ k ≤ s := by
  have hpos := T.size_pos
  have hlt := T.size_lt
  rw [le_iff_padded_length (w := T.size - 1) (by omega), makeNeedleHead_eq, makeNeedleHead_eq, Nat.min_eq_left hs.le,
    Nat.sub_add_cancel hpos, ← not_lt, lead_lt (by omega) (by omega)]
  omega

theorem makeNeedleHead_mono {T : HeadType} {k l : Bytes} (h : k ≤ l) : makeNeedleHead T k ≤ makeNeedleHead T l := by
  rcases Nat.lt_or_ge l.length T.size with hl | hl
  · exact (makeNeedleHead_le_iff hl).mpr h
  · by_contra hn
    have hpos := T.size_pos
    have hlt := T.size_lt
    rw [not_le, makeNeedleHead_eq, makeNeedleHead_eq, Nat.min_eq_right hl, lead_lt (by omega) (by omega)] at hn
    have hpad : padded l (T.size - 1) < padded k (T.size - 1) := by omega
    have htake : padded (k.take (T.size - 1)) (T.size - 1) = padded k (T.size - 1) := by
      rw [padded, padded, List.take_take, Nat.min_self, List.length_take]
      congr 2
      omega
    have hle : l ≤ k.take (T.size - 1) := by
      rw [le_iff_padded_length (w := T.size - 1) (by rw [List.length_take]; omega), htake]
      exact Or.inl hpad
    obtain rfl : k = l := le_antisymm h (hle.trans (take_le _ _))
    exact lt_irrefl _ hpad

theorem makeSepHead_injective {T : HeadType} {s t : Bytes} {h : ℕ} (hs : makeSepHead T s = some h)
    (ht : makeSepHead T t = some h) : s = t := by
  rw [makeSepHead_eq_some] at hs ht
  have he : makeNeedleHead T s = makeNeedleHead T t := hs.2.trans ht.2.symm
  exact le_antisymm ((makeNeedleHead_le_iff ht.1).mp he.le) ((makeNeedleHead_le_iff hs.1).mp he.ge)

theorem hintOf_mono {T : HeadType} {a c : ℕ} (h : a ≤ c) : hintOf T a ≤ hintOf T c :=
  Nat.div_le_div_right h

namespace HeadNode
variable {T : HeadType} {γ : Type}

theorem validateHint_eq_ok {n : HeadNode T γ} {u : Unit} :
    n.validateHint = .ok u ↔ (0 < n.count → n.hint = n.makeHint.hint) := ensure_eq_ok

theorem length_hint {n : HeadNode T γ} (h : n.validateHint = .ok ()) (hc : 0 < n.count) : n.hint.length = 16 := by
  rw [validateHint_eq_ok.mp h hc]
  simp [makeHint]

theorem makeHint_valid (n : HeadNode T γ) : n.makeHint.validateHint = .ok () :=
  validateHint_eq_ok.mpr fun _ => rfl

theorem updateHint_valid {n m : HeadNode T γ} (h : n.validateHint = .ok ()) {i x : ℕ} (hi : i ≤ n.count)
    (hk : m.keys = n.keys.insertIdx i x) (hh : m.hint = n.hint) : (m.updateHint i).validateHint = .ok () := by
  rw [validateHint_eq_ok]
  intro _
  change List.map _ _ = List.map _ _
  have hlen : m.count = n.count + 1 := by
    rw [count, hk]
    exact List.length_insertIdx_of_le_length hi x
  refine List.map_congr_left fun j hj => ?_
  rw [List.mem_range] at hj
  change _ = hintOf T (m.keyAt (m.count / (hintCount + 1) * (j + 1)))
  split_ifs with hstart
  · rw [hlen] at hstart ⊢
    obtain ⟨hpos, hd, hji⟩ := BTreeNode.hintStart_spec hstart
    have hold : n.hint.getD j 0 = hintOf T (n.keyAt (n.count / (hintCount + 1) * (j + 1))) := by
      rw [validateHint_eq_ok.mp h hpos, makeHint, List.getD_eq_getElem?_getD, List.getElem?_map,
        List.getElem?_range hj]
      rfl
    rw [hh, hold, hd, keyAt, keyAt, hk, List.getD_eq_getElem?_getD, List.getD_eq_getElem?_getD,
      List.getElem?_insertIdx_of_lt hji]
  · rfl

theorem searchLoop_le (n : HeadNode T γ) (head : ℕ) (fuel lower upper : ℕ) :
    n.searchLoop head fuel lower upper ≤ max lower upper := by
  induction fuel generalizing lower upper with
  | zero => exact Nat.le_max_left _ _
  | succ fuel ih =>
    unfold searchLoop
    dsimp only
    split_ifs
    · exact (ih lower _).trans (max_le_max le_rfl (by omega))
    · exact (ih _ upper).trans (max_le (by omega) (Nat.le_max_right _ _))
    · exact Nat.le_max_left _ _

theorem lowerBound_le {n : HeadNode T γ} {head slotId : ℕ} {found : Bool}
    (h : n.lowerBound head = .ok (slotId, found)) : slotId ≤ n.count := by
  simp only [lowerBound, bind_eq_ok, ensure_eq_ok, exists_const, pure_eq_ok, Prod.mk.injEq] at h
  obtain ⟨_, hv, -, -, rfl, -⟩ := h
  refine (searchLoop_le _ _ _ _ _).trans (max_le ?_ ?_)
  · unfold searchHint
    split_ifs with hc
    · have h16 : hintCount = 16 := rfl
      have hl := length_hint hv (by omega)
      have hpos : (n.hint.findIdx fun h => hintOf T head ≤ h) ≤ 16 := hl ▸ List.findIdx_le_length
      calc (n.hint.findIdx fun h => hintOf T head ≤ h) * (n.count / (hintCount + 1))
          ≤ 16 * (n.count / 17) := Nat.mul_le_mul_right _ hpos
        _ ≤ n.count := by omega
    · exact Nat.zero_le _
  · unfold searchHint
    dsimp only
    split_ifs with hc hp
    · calc (_ + 1) * (n.count / (hintCount + 1)) ≤ hintCount * (n.count / 17) := Nat.mul_le_mul_right _ hp
        _ ≤ n.count := by
          rw [show hintCount = 16 from rfl]
          omega
    · exact le_rfl
    · exact le_rfl

/-- How the source leaves the hints of a head node: made anew, or updated by an insertion. -/
inductive Hinted : HeadNode T γ → Prop
  | made (n : HeadNode T γ) : Hinted n.makeHint
  | inserted {n m : HeadNode T γ} {key : Bytes} {child : γ} (h : Hinted n) (hm : n.insertChild key child = .ok m) :
      Hinted m

theorem Hinted.valid {n : HeadNode T γ} (h : Hinted n) : n.validateHint = .ok () := by
  induction h with
  | made n => exact n.makeHint_valid
  | inserted h hm ih =>
    simp only [insertChild, bind_eq_ok, ensure_eq_ok, exists_const] at hm
    obtain ⟨-, hm⟩ := hm
    split at hm
    · simp only [bind_eq_ok, ensure_eq_ok, exists_const, insertAt, pure_eq_ok, Prod.exists] at hm
      obtain ⟨i, found, hi, -, _, ⟨-, rfl⟩, rfl⟩ := hm
      exact updateHint_valid ih (lowerBound_le hi) rfl rfl
    · cases hm

structure HeadsOf (n : HeadNode T γ) (seps : List Bytes) : Prop where
  heads : n.keys.map some = seps.map (makeSepHead T)
  sorted : Ascending seps
  prefixLen : n.prefixLength = commonPrefixLength n.lowerFence n.upperFence

namespace HeadsOf
variable {n : HeadNode T γ} {seps : List Bytes}

theorem length_eq (h : HeadsOf n seps) : seps.length = n.count := by
  simpa using (congrArg List.length h.heads).symm

theorem length_getPrefix (h : HeadsOf n seps) : n.getPrefix.length = n.prefixLength := by
  rw [getPrefix, List.length_take, h.prefixLen]
  exact Nat.min_eq_left (commonPrefixLength_le_left _ _)

theorem keyAt_eq (h : HeadsOf n seps) {i : ℕ} (hi : i < seps.length) :
    seps[i].length < T.size ∧ n.keyAt i = makeNeedleHead T seps[i] := by
  have hk : i < n.keys.length := hi.trans_eq h.length_eq
  have he : (n.keys.map some)[i]? = (seps.map (makeSepHead T))[i]? := by rw [h.heads]
  rw [List.getElem?_map, List.getElem?_map, List.getElem?_eq_getElem hk, List.getElem?_eq_getElem hi] at he
  have hs := makeSepHead_eq_some.mp (Option.some.inj he).symm
  refine ⟨hs.1, ?_⟩
  rw [keyAt, List.getD_eq_getElem?_getD, List.getElem?_eq_getElem hk]
  exact hs.2.symm

theorem restoreKey_eq (h : HeadsOf n seps) {i : ℕ} (hi : i < seps.length) :
    n.restoreKey (n.prefixLength + n.getKeyLength i) i = n.getPrefix ++ seps[i] := by
  obtain ⟨hlt, hkey⟩ := h.keyAt_eq hi
  have hpos := T.size_pos
  have h256 := T.size_lt
  have hlen : n.getKeyLength i = seps[i].length := by
    rw [getKeyLength, hkey, makeNeedleHead_eq, Nat.min_eq_left hlt.le]
    omega
  have hbytes : digits T.size (n.keyAt i) =
      seps[i] ++ List.replicate (T.size - 1 - seps[i].length) 0 ++ [Fin.ofNat 256 seps[i].length] := by
    rw [hkey, makeNeedleHead, if_pos hlt]
    apply digits_value
    simp only [List.length_append, List.length_replicate, List.length_singleton]
    omega
  rw [restoreKey, hlen, hbytes, Nat.add_sub_cancel_left, List.append_assoc, List.take_left]

theorem separators_eq (h : HeadsOf n seps) : n.separators = seps.map (n.getPrefix ++ ·) := by
  apply List.ext_getElem
  · simp [separators, h.length_eq]
  · intro i hi hj
    rw [List.length_map] at hj
    simp only [separators, List.getElem_map, List.getElem_range]
    exact h.restoreKey_eq hj

theorem searchLoop_eq (h : HeadsOf n seps) (key : Bytes) (fuel lower upper : ℕ) (hf : upper - lower ≤ fuel)
    (hlu : lower ≤ upper) (hu : upper ≤ seps.length)
    (hbelow : ∀ j (hj : j < seps.length), j < lower → seps[j] < key)
    (habove : ∀ j (hj : j < seps.length), upper ≤ j → key ≤ seps[j]) :
    n.searchLoop (makeNeedleHead T key) fuel lower upper = lowerIndex seps key := by
  induction fuel generalizing lower upper with
  | zero =>
    obtain rfl : lower = upper := by omega
    exact eq_lowerIndex h.sorted hu hbelow habove
  | succ fuel ih =>
    unfold searchLoop
    dsimp only
    split_ifs with hlt hle
    · have hmid : (upper - lower) / 2 + lower < seps.length := by omega
      obtain ⟨hs, hkey⟩ := h.keyAt_eq hmid
      rw [hkey, makeNeedleHead_le_iff hs] at hle
      refine ih _ _ (by omega) (by omega) hmid.le hbelow ?_
      intro j hj hmj
      exact hle.trans (h.sorted.getElem_le hmj hj)
    · have hmid : (upper - lower) / 2 + lower < seps.length := by omega
      obtain ⟨hs, hkey⟩ := h.keyAt_eq hmid
      rw [hkey, makeNeedleHead_le_iff hs, not_le] at hle
      refine ih _ _ (by omega) (by omega) hu ?_ habove
      intro j hj hjm
      exact (h.sorted.getElem_le (Nat.lt_succ_iff.mp hjm) hmid).trans_lt hle
    · obtain rfl : lower = upper := by omega
      exact eq_lowerIndex h.sorted hu hbelow habove

theorem lowerBound_of_range (h : HeadsOf n seps) (hv : n.validateHint = .ok ()) {key : Bytes} {lower upper : ℕ}
    (hr : n.searchHint (makeNeedleHead T key) 0 n.count = (lower, upper)) (hb : BTreeNode.Bracket seps key lower upper)
    (hlow : 0 < lower → n.keyAt lower < makeNeedleHead T key)
    (hupp : upper < n.count → makeNeedleHead T key ≤ n.keyAt upper) :
    n.lowerBound (makeNeedleHead T key) = .ok (lowerIndex seps key, false) := by
  rw [lowerBound, hv, ok_bind, hr]
  dsimp only
  rw [ensure_of hlow, ok_bind, ensure_of hupp, ok_bind,
    h.searchLoop_eq key _ lower upper le_rfl hb.le hb.upper_le hb.below fun j hj hjl => (hb.above j hj hjl).le]
  rfl

/-- The hints bracket the place of the key, and the assertions on the bracket hold. -/
theorem lowerBound_eq (h : HeadsOf n seps) (hv : n.validateHint = .ok ()) (key : Bytes) :
    n.lowerBound (makeNeedleHead T key) = .ok (lowerIndex seps key, false) := by
  have hlen := h.length_eq
  have h16 : hintCount = 16 := rfl
  rcases Nat.lt_or_ge (hintCount * 2) n.count with hc | hc
  · have hhl := length_hint hv (by omega)
    have hd : n.hint.length * (n.count / (hintCount + 1)) ≤ seps.length := by
      rw [hhl, hlen, h16]
      omega
    have hmono : Monotone fun k => hintOf T (makeNeedleHead T k) :=
      fun _ _ hkl => hintOf_mono (makeNeedleHead_mono hkl)
    have hget : ∀ i (hi : i < n.hint.length), ∃ hj : n.count / (hintCount + 1) * (i + 1) < seps.length,
        n.hint[i] = hintOf T (makeNeedleHead T seps[n.count / (hintCount + 1) * (i + 1)]) := by
      intro i hi
      have hj : n.count / (hintCount + 1) * (i + 1) < seps.length := by
        calc n.count / (hintCount + 1) * (i + 1) ≤ n.count / 17 * 16 := Nat.mul_le_mul_left _ (by omega)
          _ < seps.length := by omega
      refine ⟨hj, ?_⟩
      rw [← (h.keyAt_eq hj).2, List.getElem_of_eq (validateHint_eq_ok.mp hv (by omega))]
      simp [makeHint]
    obtain ⟨hb, hlow, hupp⟩ := BTreeNode.samples_bracket h.sorted hmono hd hget key rfl rfl
    rw [hhl, hlen] at hb
    rw [hhl] at hupp
    have hlt_of {a c : Bytes} (hac : hintOf T (makeNeedleHead T a) < hintOf T (makeNeedleHead T c)) :
        makeNeedleHead T a < makeNeedleHead T c :=
      lt_of_not_ge fun hn => absurd (hintOf_mono (T := T) hn) (by omega)
    refine h.lowerBound_of_range hv (if_pos hc) hb ?_ ?_
    · intro hpos
      obtain ⟨hk, hlt⟩ := hlow (Nat.pos_of_mul_pos_right hpos)
      rw [(h.keyAt_eq hk).2]
      exact hlt_of hlt
    · intro hup
      split_ifs at hup with hp
      · obtain ⟨hk, hlt⟩ := hupp hp
        rw [if_pos hp, (h.keyAt_eq hk).2]
        exact (hlt_of hlt).le
      · exact absurd hup (lt_irrefl _)
  · have hb := BTreeNode.Bracket.all seps key
    rw [hlen] at hb
    exact h.lowerBound_of_range hv (if_neg (not_lt.mpr hc)) hb (fun h0 => absurd h0 (lt_irrefl 0))
      fun h0 => absurd h0 (lt_irrefl _)

theorem lookupInnerIndex_eq (h : HeadsOf n seps) (hv : n.validateHint = .ok ()) (key : Bytes) :
    n.lookupInnerIndex (n.getPrefix ++ key) = .ok (lowerIndex n.separators (n.getPrefix ++ key)) := by
  have hidx : lowerIndex n.separators (n.getPrefix ++ key) = lowerIndex seps key := by
    rw [h.separators_eq]
    exact lowerIndex_map (fun _ _ => append_lt_append_iff) _ _
  have hdrop : (n.getPrefix ++ key).drop n.prefixLength = key := by
    rw [← h.length_getPrefix, List.drop_left]
  have hlen : n.prefixLength ≤ (n.getPrefix ++ key).length := by
    rw [List.length_append, h.length_getPrefix]
    exact Nat.le_add_right _ _
  rw [lookupInnerIndex, ensure_of hlen, ok_bind, hdrop, h.lowerBound_eq hv, hidx]
  rfl

end HeadsOf

/-- Comparing heads is comparing keys, heads determine their separators, and routing by heads is
routing by the complete separators. -/
theorem routing_exact (T : HeadType) :
    (∀ s : Bytes, s.length < T.size → ∃ h, makeSepHead T s = some h ∧ ∀ k, makeNeedleHead T k ≤ h ↔ k ≤ s) ∧
    (∀ s t : Bytes, s.length < T.size → makeSepHead T s = makeSepHead T t → s = t) ∧
    (∀ (γ : Type) (n : HeadNode T γ) (seps : List Bytes), n.Hinted → n.HeadsOf seps →
      n.separators = seps.map (n.getPrefix ++ ·) ∧
      ∀ key, n.lookupInnerIndex (n.getPrefix ++ key) = .ok (lowerIndex n.separators (n.getPrefix ++ key))) := by
  refine ⟨?_, ?_, ?_⟩
  · intro s hs
    exact ⟨_, makeSepHead_eq_some.mpr ⟨hs, rfl⟩, fun _ => makeNeedleHead_le_iff hs⟩
  · intro s t hs he
    have hsome := makeSepHead_eq_some.mpr ⟨hs, rfl⟩
    exact makeSepHead_injective hsome (he ▸ hsome)
  · intro γ n seps hn h
    exact ⟨h.separators_eq, h.lookupInnerIndex_eq hn.valid⟩

/-- A node with the separators `a` and `b`, searched for a key longer than a head. -/
theorem routing_exact_pair :
    let node : HeadNode .uint32 Unit := HeadNode.makeHint {
      keyCapacity := 333, lowerFence := [], upperFence := [], prefixLength := 0
      hint := List.replicate hintCount 0, keys := [97 * 2 ^ 24 + 1, 98 * 2 ^ 24 + 1], children := [(), (), ()] }
    node.lookupInnerIndex [97, 98, 99, 100, 101] = .ok (lowerIndex node.separators [97, 98, 99, 100, 101]) := by
  intro node
  have hkeys : node.HeadsOf [[97], [98]] := ⟨by decide, List.pairwise_pair.mpr (by decide), rfl⟩
  exact ((routing_exact .uint32).2.2 Unit node [[97], [98]] (Hinted.made _) hkeys).2 [97, 98, 99, 100, 101]

end HeadNode

end BtreeRedis
