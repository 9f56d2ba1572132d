import KKChain.P2P.RoutingTable
import KKChain.ToMathlib.Nearest

/-! # The closest peers

The search takes the bucket of the target and then the two buckets at distance one, two and so on, until there are
enough peers. All peers in the buckets above are closer to the target than any in the buckets below, so that a peer
further up is passed over for one below that is not as close: the search is right exactly if no bucket above that it
does not come to holds one of the closest peers.
-/

namespace KKChain

open List BigEndian Bool

namespace P2P

namespace Dht

namespace RoutingTable

/-- The peers of a bucket, if its number is in range, after those already collected. -/
def gather (t : RoutingTable) (inRange : Bool) (id : ℤ) (peers : List PeerID) : Except (Fault Empty) (List PeerID) :=
  if inRange then
    match t.bucket id with
    | none => .error .panic
    | some other => .ok (peers ++ other)
  else .ok peers

/-- The loop of `FindClosestPeers`, from round `i` on. -/
def collect (t : RoutingTable) (bucketID count : ℤ) : ℕ → ℤ → List PeerID → Except (Fault Empty) (List PeerID)
  | 0, _, _ => .error .diverges
  | fuel + 1, i, peers =>
    if (peers.length : ℤ) < count ∧ (bucketID - i ≥ 0 ∨ bucketID + i < t.self.hash.length * 8) then do
      let peers ← t.gather (bucketID - i ≥ 0) (bucketID - i) peers
      let peers ← t.gather (bucketID + i < t.self.hash.length * 8) (bucketID + i) peers
      t.collect bucketID count fuel (i + 1) peers
    else .ok peers

/-- `FindClosestPeers`. A negative `count` is out of the range of a slice. -/
def findClosestPeers (t : RoutingTable) (target : PeerID) (count : ℤ) : Except (Fault Empty) (List PeerID) :=
  if t.self.hash.length ≠ target.hash.length then .ok []
  else
    let bucketID := (target.xor t.self).prefixLen
    match t.bucket bucketID with
    | none => .error .panic
    | some bucket => do
      let peers ← t.collect bucketID count (t.buckets.length + 1) 1 bucket
      let sorted := peers.insertionSort fun p q => ¬ (q.xor target).less (p.xor target)
      if (sorted.length : ℤ) > count then
        if count < 0 then .error .panic else .ok (sorted.take count.toNat)
      else .ok sorted

end RoutingTable

open RoutingTable

/-- The XOR distance of a peer to the target. -/
def distance (target p : PeerID) : ℕ := BigEndian.toNat (p.xor target).hash

section Distance

variable {t : RoutingTable} {target p q : PeerID}

theorem distance_eq (sized : p.hash.length = target.hash.length) :
    distance target p = toNat p.hash ^^^ toNat target.hash :=
  toNat_xor sized

theorem less_iff (sized : p.hash.length = q.hash.length) :
    (p.xor target).less (q.xor target) ↔ distance target p < distance target q := by
  rw [PeerID.less, decide_eq_true_eq, lt_iff_toNat_lt (by simp [PeerID.xor, sized])]
  rfl

/-- A peer in a bucket below the target's is further away than every peer in a bucket above its own. -/
theorem distance_lt_of_slot_lt (sizedT : t.Sized target) (sizedP : t.Sized p) (sizedQ : t.Sized q)
    (below : t.slot p < t.slot target) (above : t.slot p < t.slot q) : distance target q < distance target p := by
  rw [sizedP.slot_eq, sizedT.slot_eq] at below
  rw [sizedP.slot_eq, sizedQ.slot_eq] at above
  rw [distance_eq (sizedP.length.trans sizedT.length.symm), distance_eq (sizedQ.length.trans sizedT.length.symm)]
  have through : ∀ a b s : ℕ, a ^^^ b = (b ^^^ s) ^^^ (a ^^^ s) := by
    intro a b s
    rw [Nat.xor_comm b s, ← Nat.xor_assoc, Nat.xor_assoc s b a, Nat.xor_comm s (b ^^^ a), Nat.xor_assoc, Nat.xor_self,
      Nat.xor_zero, Nat.xor_comm]
  have far : (toNat p.hash ^^^ toNat target.hash).size =
      (toNat p.hash ^^^ toNat t.self.hash).size := by
    rw [through _ _ (toNat t.self.hash), Nat.size_xor_of_lt (by omega)]
  have near := Nat.size_xor_le (toNat target.hash ^^^ toNat t.self.hash)
    (toNat q.hash ^^^ toNat t.self.hash)
  rw [← through] at near
  apply Nat.lt_of_size_lt
  omega

end Distance

/-! ### What the loop visits -/

section Visited

variable {α : Type}

/-- Where each entry knows its row, a row is what is found by it. -/
theorem filter_flatten_eq {f : α → ℕ} {rows : List (List α)} (k : ℕ)
    (placed : ∀ i, ∀ a ∈ rows.getD i [], f a = k + i) (j : ℕ) :
    rows.flatten.filter (f · = k + j) = rows.getD j [] := by
  induction rows generalizing k j with
  | nil => simp
  | cons row rows ih =>
    have first : ∀ a ∈ row, f a = k := fun a mem => placed 0 a mem
    have later : ∀ i, ∀ a ∈ rows.getD i [], f a = k + 1 + i := fun i a mem => by
      rw [placed (i + 1) a mem]
      omega
    rw [flatten_cons, filter_append]
    cases j with
    | zero =>
      have none : rows.flatten.filter (f · = k + 0) = [] := by
        rw [filter_eq_nil_iff]
        intro a mem
        obtain ⟨row', inside, mem⟩ := mem_flatten.mp mem
        obtain ⟨i, lt, rfl⟩ := mem_iff_getElem.mp inside
        have := later i a (by simpa [getD_eq_getElem?_getD, lt] using mem)
        simp only [decide_eq_true_eq]
        omega
      rw [none, append_nil, filter_eq_self.mpr fun a mem => by simp [first a mem]]
      rfl
    | succ j =>
      have none : row.filter (f · = k + (j + 1)) = [] := by
        rw [filter_eq_nil_iff]
        intro a mem
        simp [first a mem]
      rw [none, nil_append, show k + (j + 1) = k + 1 + j by omega, ih (k + 1) later j]
      rfl

theorem filter_append_filter_perm {P Q R : α → Bool} (l : List α) (whole : ∀ a ∈ l, R a = (P a || Q a))
    (disjoint : ∀ a ∈ l, ¬ (P a ∧ Q a)) : (l.filter P ++ l.filter Q).Perm (l.filter R) := by
  induction l with
  | nil => exact .refl _
  | cons a l ih =>
    obtain ⟨here, rest⟩ := forall_mem_cons.mp whole
    obtain ⟨apart, others⟩ := forall_mem_cons.mp disjoint
    have tail := ih rest others
    cases first : P a <;> cases second : Q a <;> simp only [first, second, Bool.or_false, Bool.or_true] at here apart
    · simpa [filter_cons, first, second, here] using tail
    · simpa [filter_cons, first, second, here] using perm_middle.trans (tail.cons a)
    · simpa [filter_cons, first, second, here] using tail.cons a
    · simp at apart

end Visited

namespace RoutingTable

/-- The peer is in a bucket at most `r` away from the target's. -/
def near (t : RoutingTable) (target : PeerID) (r : ℕ) (p : PeerID) : Bool :=
  decide (t.slot target ≤ t.slot p + r ∧ t.slot p ≤ t.slot target + r)

section Loop

variable {P : PeerID → Prop} {t : RoutingTable} {target : PeerID} {peers : List PeerID}

theorem Formed.entries_eq (formed : Formed P t) (j : ℕ) : t.entries j = t.peers.filter (t.slot · = j) := by
  have := filter_flatten_eq (f := t.slot) 0 (fun i p mem => by rw [formed.placed i p mem, Nat.zero_add]) j
  rw [Nat.zero_add] at this
  exact this.symm

theorem gather_eq {j : ℕ} (inside : j < t.buckets.length) (peers : List PeerID) :
    t.gather true j peers = .ok (peers ++ t.entries j) := by
  rw [gather, if_pos rfl, RoutingTable.bucket, if_pos (Int.natCast_nonneg _), Int.toNat_natCast,
    getElem?_eq_getElem inside, entries, getD_eq_getElem?_getD, getElem?_eq_getElem inside]
  rfl

/-- A round adds the two buckets next to those visited. -/
theorem Formed.visit (formed : Formed P t) {r : ℕ} (visited : peers.Perm (t.peers.filter (t.near target r))) :
    ((if r + 1 ≤ t.slot target then peers ++ t.entries (t.slot target - (r + 1)) else peers) ++
      t.entries (t.slot target + (r + 1))).Perm (t.peers.filter (t.near target (r + 1))) := by
  have lower : (if r + 1 ≤ t.slot target then peers ++ t.entries (t.slot target - (r + 1)) else peers).Perm
      (t.peers.filter fun p => t.near target r p || decide (t.slot p + (r + 1) = t.slot target)) := by
    split
    · rename_i le
      rw [formed.entries_eq]
      refine (visited.append_right _).trans (filter_append_filter_perm _ (fun p _ => ?_) fun p _ => ?_)
      · congr 1
        rw [decide_eq_decide]
        omega
      · simp only [near, decide_eq_true_eq]
        omega
    · rename_i lt
      refine visited.trans (.of_eq (filter_congr fun p _ => ?_))
      rw [decide_eq_false (by omega), Bool.or_false]
  rw [formed.entries_eq (t.slot target + (r + 1))]
  refine (lower.append_right _).trans (filter_append_filter_perm _ (fun p _ => ?_) fun p _ => ?_)
  · rw [Bool.eq_iff_iff]
    simp only [near, or_eq_true, decide_eq_true_eq]
    omega
  · simp only [near, or_eq_true, decide_eq_true_eq]
    omega

/-- The loop returns: it has visited the buckets up to some distance, which are enough or all, and no fewer were. -/
theorem Formed.collect (formed : Formed P t) (sizedT : t.Sized target) (stored : ∀ p, P p → t.Sized p)
    (count fuel r : ℕ) (fueled : t.buckets.length + 1 ≤ fuel + r) (early : r ≤ t.buckets.length)
    (visited : peers.Perm (t.peers.filter (t.near target r)))
    (wanting : ∀ r' < r, t.peers.countP (t.near target r') < count) :
    ∃ r' peers', t.collect (t.slot target) count fuel (r + 1 : ℕ) peers = .ok peers' ∧
      peers'.Perm (t.peers.filter (t.near target r')) ∧
      (count ≤ t.peers.countP (t.near target r') ∨ ∀ p ∈ t.peers, t.near target r' p) ∧
      ∀ r'' < r', t.peers.countP (t.near target r'') < count := by
  induction fuel generalizing r peers with
  | zero => omega
  | succ fuel ih =>
    have number : peers.length = t.peers.countP (t.near target r) := by rw [visited.length_eq, countP_eq_length_filter]
    have range := t.length_buckets
    have slot_lt := sizedT.slot_lt
    by_cases again : peers.length < count ∧ (r + 1 ≤ t.slot target ∨ t.slot target + (r + 1) < t.buckets.length)
    · have next := formed.visit visited
      have lower : t.gather ((t.slot target : ℤ) - ((r + 1 : ℕ) : ℤ) ≥ 0)
        ((t.slot target : ℤ) - ((r + 1 : ℕ) : ℤ)) peers =
          .ok (if r + 1 ≤ t.slot target then peers ++ t.entries (t.slot target - (r + 1)) else peers) := by
        by_cases le : r + 1 ≤ t.slot target
        · rw [decide_eq_true (by omega), if_pos le, ← Nat.cast_sub le, gather_eq (by omega)]
        · rw [decide_eq_false (by omega), if_neg le]
          rfl
      have upper : ∀ peers, t.gather ((t.slot target : ℤ) + ((r + 1 : ℕ) : ℤ) < t.self.hash.length * 8)
          ((t.slot target : ℤ) + ((r + 1 : ℕ) : ℤ)) peers = .ok (peers ++ t.entries (t.slot target + (r + 1))) := by
        intro peers
        by_cases lt : t.slot target + (r + 1) < t.buckets.length
        · rw [decide_eq_true (by omega), ← Nat.cast_add, gather_eq lt]
        · rw [decide_eq_false (by omega), entries, getD_eq_getElem?_getD, getElem?_eq_none (by omega)]
          simp [gather]
      obtain ⟨r', peers', ran, perm, enough, fewer⟩ := ih (r + 1) (by omega) (by omega) next fun r' lt => by
        rcases Nat.lt_succ_iff_lt_or_eq.mp lt with lt | rfl
        · exact wanting r' lt
        · omega
      refine ⟨r', peers', ?_, perm, enough, fewer⟩
      rw [RoutingTable.collect, if_pos (by omega), lower]
      dsimp only [bind, Except.bind]
      rw [upper]
      exact ran
    · refine ⟨r, peers, ?_, visited, ?_, wanting⟩
      · rw [RoutingTable.collect, if_neg (by omega)]
      · by_cases enough : count ≤ peers.length
        · exact .inl (number ▸ enough)
        · refine .inr fun p mem => ?_
          obtain ⟨i, inside⟩ := mem_peers.mp mem
          have bound := (stored p (formed.given i p inside)).slot_lt
          simp only [near, decide_eq_true_eq]
          omega

/-- The search ends before it comes to the bucket of `u`, which is above the target's: the buckets nearer to the
target's hold enough peers. -/
def PassedOver (t : RoutingTable) (target : PeerID) (count : ℕ) (u : PeerID) : Prop :=
  t.slot target < t.slot u ∧ count ≤ t.peers.countP (t.near target (t.slot u - t.slot target - 1))

instance (t : RoutingTable) (target : PeerID) (count : ℕ) (u : PeerID) : Decidable (t.PassedOver target count u) :=
  inferInstanceAs (Decidable (_ ∧ _))

theorem countP_near_mono {r r' : ℕ} (le : r ≤ r') :
    t.peers.countP (t.near target r) ≤ t.peers.countP (t.near target r') := by
  apply countP_mono_left
  intro p _ close
  simp only [near, decide_eq_true_eq] at close ⊢
  omega

/-- Sorting by `Less` is sorting by the distance. -/
theorem pairwise_sorted (target : PeerID) (peers : List PeerID)
    (sized : ∀ p ∈ peers, p.hash.length = target.hash.length) (apart : (peers.map (distance target)).Nodup) :
    (peers.insertionSort fun p q => ¬ (q.xor target).less (p.xor target)).Pairwise
      (distance target · < distance target ·) := by
  have perm := perm_insertionSort (fun p q => ¬ ((q.xor target).less (p.xor target) : Prop)) peers
  have distances := map_insertionSort (r := fun p q => ¬ ((q.xor target).less (p.xor target) : Prop))
    (s := (· ≤ ·)) (distance target) peers fun p left q right => by
      rw [less_iff ((sized q right).trans (sized p left).symm), Nat.not_lt]
  have ascending := pairwise_insertionSort (· ≤ ·) (peers.map (distance target))
  rw [← distances, pairwise_map] at ascending
  have differ : ((peers.insertionSort fun p q => ¬ (q.xor target).less (p.xor target)).map (distance target)).Nodup :=
    (perm.map _).nodup_iff.mpr apart
  rw [Nodup, pairwise_map] at differ
  exact ascending.imp₂ (fun p q le ne => lt_of_le_of_ne le ne) differ

end Loop

end RoutingTable

/-- The search finds the closest peers exactly if every peer it passes over has enough peers that are closer. -/
theorem closest_peers_iff {self : PeerID} {calls : List Call} {ts : List (RoutingTable × Call × RoutingTable)}
    {t : RoutingTable} (nonempty : 0 < self.hash.length) (sized : ∀ c ∈ calls, c.peer.hash.length = self.hash.length)
    (reached : Reached self calls ts t) (target : PeerID) (length : target.hash.length = self.hash.length) (count : ℕ) :
    ∃ result, t.findClosestPeers target count = .ok result ∧
      (List.Nearest (distance target) count t.peers result ↔ ∀ u ∈ t.peers, t.PassedOver target count u →
        count ≤ t.peers.countP (distance target · < distance target u)) := by
  obtain ⟨-, formed, owner⟩ := reached.formed (P := fun p => p.hash.length = self.hash.length) nonempty sized rfl sized
  have fits : ∀ p, p.hash.length = self.hash.length → t.Sized p := fun p same => ⟨by rw [owner, same], by rwa [owner]⟩
  have sizedT := fits target length
  have stored : ∀ p ∈ t.peers, p.hash.length = self.hash.length := fun p member => by
    obtain ⟨i, inside⟩ := mem_peers.mp member
    exact formed.given i p inside
  have apart : (t.peers.map (distance target)).Nodup := by
    refine formed.nodup_map fun p q left right same => ?_
    rw [distance_eq (left.trans length.symm), distance_eq (right.trans length.symm)] at same
    have hashes : p.hash = q.hash := by
      have := congrArg (· ^^^ toNat target.hash) same
      simp only [Nat.xor_assoc, Nat.xor_self, Nat.xor_zero] at this
      exact eq_of_toNat_eq (left.trans right.symm) this
    exact ⟨PeerID.equals_iff.mpr (.inr hashes), by rw [(fits p left).slot_eq, (fits q right).slot_eq, hashes]⟩
  have start : (t.entries (t.slot target)).Perm (t.peers.filter (t.near target 0)) := by
    rw [formed.entries_eq]
    refine .of_eq (filter_congr fun p _ => ?_)
    rw [near, decide_eq_decide]
    omega
  obtain ⟨r, peers, ran, perm, enough, fewer⟩ :=
    formed.collect sizedT fits count (t.buckets.length + 1) 0 (Nat.le_refl _)
    (Nat.zero_le _) start fun r' lt => absurd lt (Nat.not_lt_zero _)
  have sorted := pairwise_sorted target peers
    (fun p member => (stored p (mem_of_mem_filter (perm.mem_iff.mp member))).trans length.symm)
    (((perm.map _).nodup_iff).mpr (apart.sublist (filter_sublist.map _)))
  have order := perm_insertionSort (fun p q => ¬ ((q.xor target).less (p.xor target) : Prop)) peers
  have split : t.peers.Perm (t.peers.filter (t.near target r) ++ t.peers.filter fun p => !t.near target r p) :=
    (filter_append_perm _ _).symm
  rw [show ((0 + 1 : ℕ) : ℤ) = 1 from rfl] at ran
  refine ⟨_, ?_, (nearest_take_iff split apart (order.trans perm) sorted).trans ?_⟩
  · rw [findClosestPeers, if_neg (by rw [owner, length]; exact fun differ => differ rfl)]
    dsimp only
    rw [sizedT.bucket, sizedT.prefixLen]
    dsimp only
    rw [ran]
    dsimp only [bind, Except.bind]
    split
    · rw [if_neg (by omega), Int.toNat_natCast]
    · rw [take_of_length_le (by omega)]
  · constructor
    · intro all u member ⟨above, early⟩
      refine all u (mem_filter.mpr ⟨member, ?_⟩)
      have close : r ≤ t.slot u - t.slot target - 1 := Nat.le_of_not_lt fun lt => absurd (fewer _ lt) (not_lt.mpr early)
      simp only [near, not_eq_true', decide_eq_false_iff_not]
      omega
    · intro all u member
      obtain ⟨member, unseen⟩ := mem_filter.mp member
      simp only [not_eq_true'] at unseen
      have many : count ≤ t.peers.countP (t.near target r) :=
        enough.resolve_right fun every => absurd (every u member) (by simp [unseen])
      simp only [near, decide_eq_false_iff_not] at unseen
      by_cases above : t.slot target + r < t.slot u
      · refine all u member ⟨by omega, many.trans (countP_near_mono (by omega))⟩
      · -- everything visited is in a bucket above that of `u`
        refine many.trans (countP_mono_left fun v inside close => ?_)
        simp only [near, decide_eq_true_eq] at close ⊢
        exact distance_lt_of_slot_lt sizedT (fits u (stored u member)) (fits v (stored v inside)) (by omega) (by omega)

/-- The peer whose id is zero but for the last byte. -/
def bytePeer (b : UInt8) : PeerID := .create padded [] [b]

theorem closest_peers_found : ∃ ts t, Reached (bytePeer 0) [.update (bytePeer 16)] ts t ∧
    ∃ result, t.findClosestPeers (bytePeer 17) 1 = .ok result ∧
      List.Nearest (distance (bytePeer 17)) 1 t.peers result := by
  obtain ⟨ts, t, reached, passed⟩ := exists_reached_of_foldlM (bytePeer 0) [.update (bytePeer 16)]
    (fun t => decide (∀ u ∈ t.peers, t.PassedOver (bytePeer 17) 1 u →
      1 ≤ t.peers.countP (distance (bytePeer 17) · < distance (bytePeer 17) u))) (by decide +kernel)
  have sized : ∀ c ∈ [Call.update (bytePeer 16)], c.peer.hash.length = (bytePeer 0).hash.length := by decide
  obtain ⟨result, found, nearest⟩ := closest_peers_iff (by decide) sized reached (bytePeer 17) (by decide) 1
  exact ⟨ts, t, reached, result, found, nearest.mpr (of_decide_eq_true passed)⟩

/-- The one peer below the target's bucket is returned, and the local node, in the last bucket, is closer. -/
theorem closest_peer_missed : ∃ ts t, Reached (bytePeer 0) [.update (bytePeer 16)] ts t ∧
    ∃ result, t.findClosestPeers (bytePeer 8) 1 = .ok result ∧
      ¬ List.Nearest (distance (bytePeer 8)) 1 t.peers result := by
  obtain ⟨ts, t, reached, passed⟩ := exists_reached_of_foldlM (bytePeer 0) [.update (bytePeer 16)]
    (fun t => decide (t.findClosestPeers (bytePeer 8) 1 = .ok [bytePeer 16] ∧ bytePeer 0 ∈ t.peers)) (by decide +kernel)
  obtain ⟨found, stored⟩ := of_decide_eq_true passed
  refine ⟨ts, t, reached, _, found, fun closest => ?_⟩
  exact absurd (closest.nearest _ stored (by decide) _ (.head _)) (by decide)

end Dht

end P2P

end KKChain
