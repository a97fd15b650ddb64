/-
  Cache/RingAgreement.lean --- when replicas agree on the owner of a key, and which
  keys change theirs with the peer list.

  Source: internal/cache/peer.go: parsePeerList, hashRing.add, hashRing.get, updatePeers, IsOwner.

  The ring keeps one owner for each point.
-/
import LokiVlProxy.Cache.Peer
import LokiVlProxy.Foundation.Text
import LokiVlProxy.Foundation.Search

namespace LokiVlProxy.Cache

open Foundation List

def parsePeerList (s : String) : List String :=
  ((s.toList.splitOn ',').map fun part => String.ofList (Foundation.trimSpace part)).filter (· ≠ "")

namespace HashRing

/-- The points of an address on the ring. -/
def points (hashKey : String → UInt32) (vnodes : Nat) (addr : String) : List UInt32 :=
  (List.range vnodes).map fun i => hashKey (addr ++ "#" ++ toString i)

/-- What the ring holds after the addresses of a list have been added in its order. -/
structure Describes (hashKey : String → UInt32) (vnodes : Nat) (peers : List String)
    (hr : HashRing) : Prop where
  hashKey_eq : hr.hashKey = hashKey
  vnodes_eq : hr.vnodes = vnodes
  sorted : hr.ring.Pairwise (· ≤ ·)
  mem_ring : ∀ p, p ∈ hr.ring ↔ ∃ a ∈ peers, p ∈ points hashKey vnodes a
  /-- the address added last owns a point -/
  owner : ∀ p, hr.nodeMap.find? p =
    (peers.filter fun a => p ∈ points hashKey vnodes a).getLast?

theorem foldl_addPoint (addr : String) (hr : HashRing) (is : List Nat) :
    let hr' := is.foldl (addPoint addr) hr
    let added := is.map fun i => hr.hashKey (addr ++ "#" ++ toString i)
    hr'.hashKey = hr.hashKey ∧ hr'.vnodes = hr.vnodes ∧ hr'.ring = hr.ring ++ added ∧
      ∀ p, hr'.nodeMap.find? p = if p ∈ added then some addr else hr.nodeMap.find? p := by
  induction is generalizing hr with
  | nil => simp
  | cons i is ih =>
    obtain ⟨hhash, hvnodes, hring, hmap⟩ := ih (hr.addPoint addr i)
    refine ⟨hhash, hvnodes, ?_, fun p => ?_⟩
    · rw [foldl_cons, hring]
      simp [addPoint]
    · rw [foldl_cons, hmap, map_cons]
      simp only [addPoint, KeyMap.find?_insert, mem_cons]
      by_cases hlater : p ∈ is.map fun i => hr.hashKey (addr ++ "#" ++ toString i)
      · rw [if_pos hlater, if_pos (.inr hlater)]
      · simp only [hlater, if_false, or_false]

theorem describes_new (hashKey : String → UInt32) (vnodes : Nat) :
    Describes hashKey vnodes [] (new hashKey vnodes) where
  hashKey_eq := rfl
  vnodes_eq := rfl
  sorted := List.Pairwise.nil
  mem_ring := fun p => by simp [new]
  owner := fun p => rfl

variable {hashKey : String → UInt32} {vnodes : Nat} {peers : List String} {hr : HashRing}
  {p : UInt32}

/-- Adding an address puts its points on the ring. -/
theorem Describes.add (h : Describes hashKey vnodes peers hr) (addr : String) :
    Describes hashKey vnodes (peers ++ [addr]) (hr.add addr) := by
  obtain ⟨hhash, hvnodes, hring, hmap⟩ := foldl_addPoint addr hr (List.range hr.vnodes)
  rw [h.hashKey_eq, h.vnodes_eq] at hring hmap
  change _ = _ ++ points hashKey vnodes addr at hring
  change ∀ p, _ = if p ∈ points hashKey vnodes addr then _ else _ at hmap
  refine ⟨hhash.trans h.hashKey_eq, hvnodes.trans h.vnodes_eq, ?_, fun p => ?_, fun p => ?_⟩
  · exact pairwise_insertionSort _ _
  · simp only [HashRing.add, mem_insertionSort, h.vnodes_eq, hring, mem_append,
      h.mem_ring, mem_singleton, or_and_right, exists_or, exists_eq_left]
  · simp only [HashRing.add, h.vnodes_eq, hmap, filter_append, h.owner]
    by_cases hp : p ∈ points hashKey vnodes addr
    · rw [if_pos hp, filter_cons_of_pos (by simpa using hp)]
      simp
    · rw [if_neg hp, filter_cons_of_neg (by simpa using hp)]
      simp

/-- A ring built from a list holds the points of its addresses. -/
theorem describes_foldl_add (hashKey : String → UInt32) (vnodes : Nat) (peers : List String) :
    Describes hashKey vnodes peers (peers.foldl add (new hashKey vnodes)) := by
  induction peers using List.reverseRecOn with
  | nil => exact describes_new hashKey vnodes
  | append_singleton peers addr ih =>
    rw [foldl_append]
    exact ih.add addr

/-! ## The point a key falls on -/

/-- Going up from `h`, and from the lowest point again after the highest, `p` is the first
point met. -/
def IsNext (onRing : UInt32 → Prop) (h p : UInt32) : Prop :=
  onRing p ∧ ((h ≤ p ∧ ∀ q, onRing q → h ≤ q → p ≤ q) ∨
    ((∀ q, onRing q → q < h) ∧ ∀ q, onRing q → p ≤ q))

theorem IsNext.unique {onRing : UInt32 → Prop} {h q : UInt32} (hp : IsNext onRing h p)
    (hq : IsNext onRing h q) : p = q := by
  obtain ⟨honp, hp⟩ := hp
  obtain ⟨honq, hq⟩ := hq
  rcases hp with ⟨hlep, hminp⟩ | ⟨hltp, hminp⟩ <;> rcases hq with ⟨hleq, hminq⟩ | ⟨hltq, hminq⟩
  · exact UInt32.le_antisymm (hminp q honq hleq) (hminq p honp hlep)
  · exact absurd (hltq p honp) (UInt32.not_lt.mpr hlep)
  · exact absurd (hltp q honq) (UInt32.not_lt.mpr hleq)
  · exact UInt32.le_antisymm (hminp q honq) (hminq p honp)

/-- In a sorted list the search of `get` finds the next point. -/
theorem isNext_of_search {ring : List UInt32} (hsorted : ring.Pairwise (· ≤ ·)) {h : UInt32}
    (hfound : (ring.find? (· ≥ h)).or ring.head? = some p) : IsNext (· ∈ ring) h p := by
  cases hfind : ring.find? (· ≥ h) with
  | some p' =>
    rw [hfind, Option.some_or] at hfound
    obtain rfl := Option.some.inj hfound
    obtain ⟨hle, before, after, rfl, hbefore⟩ := find?_eq_some_iff_append.mp hfind
    refine ⟨by simp, .inl ⟨by simpa using hle, fun q hq hqle => ?_⟩⟩
    rcases mem_append.mp hq with hq | hq
    · simpa [hqle] using hbefore q hq
    · rcases mem_cons.mp hq with rfl | hq
      · exact UInt32.le_refl q
      · exact rel_of_pairwise_cons (pairwise_append.mp hsorted).2.1 hq
  | none =>
    rw [hfind, Option.none_or] at hfound
    have hbelow := find?_eq_none.mp hfind
    cases ring with
    | nil => cases hfound
    | cons first rest =>
      obtain rfl := Option.some.inj hfound
      refine ⟨mem_cons_self, .inr ⟨fun q hq => ?_, fun q hq => ?_⟩⟩
      · exact UInt32.not_le.mp (by simpa using hbelow q hq)
      · rcases mem_cons.mp hq with rfl | hq
        · exact UInt32.le_refl q
        · exact rel_of_pairwise_cons hsorted hq

/-- A virtual node of an address of the list has this point. -/
def OnRing (hashKey : String → UInt32) (vnodes : Nat) (peers : List String) (p : UInt32) : Prop :=
  ∃ a ∈ peers, p ∈ points hashKey vnodes a

/-- In a sorted ring the first point at or behind a hash exists, around the end if need be. -/
theorem exists_isNext_of_sorted {ring : List UInt32} (hsorted : ring.Pairwise (· ≤ ·))
    (hne : ring ≠ []) (h : UInt32) :
    ∃ p, (ring.find? (· ≥ h)).or ring.head? = some p ∧ IsNext (· ∈ ring) h p := by
  cases hfound : (ring.find? (· ≥ h)).or ring.head? with
  | none => exact absurd (head?_eq_none_iff.mp (Option.or_eq_none_iff.mp hfound).2) hne
  | some p => exact ⟨p, rfl, isNext_of_search hsorted hfound⟩

theorem Describes.onRing_eq (h : Describes hashKey vnodes peers hr) :
    OnRing hashKey vnodes peers = (· ∈ hr.ring) :=
  funext fun p => propext (h.mem_ring p).symm

theorem exists_isNext (hashKey : String → UInt32) (hpos : 0 < vnodes) (hne : peers ≠ [])
    (h : UInt32) : ∃ p, IsNext (OnRing hashKey vnodes peers) h p := by
  have hd := describes_foldl_add hashKey vnodes peers
  obtain ⟨a, ha⟩ := exists_mem_of_ne_nil peers hne
  have hon : OnRing hashKey vnodes peers (hashKey (a ++ "#" ++ toString 0)) :=
    ⟨a, ha, mem_map.mpr ⟨0, mem_range.mpr hpos, rfl⟩⟩
  rw [hd.onRing_eq] at hon ⊢
  obtain ⟨p, -, hp⟩ := exists_isNext_of_sorted hd.sorted (ne_nil_of_mem hon) h
  exact ⟨p, hp⟩

/-- The owner of a key is the last address added with a node on its point. -/
theorem Describes.get_eq (h : Describes hashKey vnodes peers hr) {key : String}
    (hp : IsNext (OnRing hashKey vnodes peers) (hashKey key) p) :
    hr.get key = ((peers.filter fun a => p ∈ points hashKey vnodes a).getLast?).getD "" := by
  rw [h.onRing_eq] at hp
  obtain ⟨q, hfound, hq⟩ :=
    exists_isNext_of_sorted h.sorted (ne_nil_of_mem hp.1) (hr.hashKey key)
  rw [h.hashKey_eq] at hq
  obtain rfl := hq.unique hp
  simp only [get, hfound, h.owner]

end HashRing

/-! ## Replicas -/

namespace PeerCache

open HashRing

/-- The two lists name the same addresses, in whatever order and however often. -/
def SameAddresses (peers peers' : List String) : Prop :=
  ∀ a, a ∈ peers ↔ a ∈ peers'

/-- A replica that has discovered this list. -/
def discovered (hashKey : String → UInt32) (self : String) (writeThrough : Bool) (minTTL : Int)
    (peers : List String) : PeerCache :=
  (PeerCache.new hashKey self writeThrough minTTL).updatePeers peers

variable {peers peers' addrs : List String}

theorem SameAddresses.symm (h : SameAddresses peers peers') : SameAddresses peers' peers :=
  fun a => (h a).symm

theorem SameAddresses.eq_nil (h : SameAddresses peers []) : peers = [] := by
  rw [eq_nil_iff_forall_not_mem]
  intro a ha
  exact not_mem_nil ((h a).mp ha)

theorem sameAddresses_snoc {a : String} (ha : a ∈ addrs) : SameAddresses (addrs ++ [a]) addrs := by
  intro b
  simp only [mem_append, mem_singleton, or_iff_left_iff_imp]
  rintro rfl
  exact ha

theorem SameAddresses.onRing {hashKey : String → UInt32} {vnodes : Nat}
    (h : SameAddresses peers peers') :
    OnRing hashKey vnodes peers = OnRing hashKey vnodes peers' := by
  funext p
  simp only [OnRing, h _]

section

variable (hashKey : String → UInt32) (self : String) (writeThrough : Bool) (minTTL : Int)
  (h : SameAddresses peers addrs) {key : String} {p : UInt32}
  (hp : IsNext (OnRing hashKey 150 addrs) (hashKey key) p)

include h hp

theorem get_discovered :
    (discovered hashKey self writeThrough minTTL peers).ring.get key =
      ((peers.filter fun a => p ∈ points hashKey 150 a).getLast?).getD "" := by
  rw [← h.onRing] at hp
  exact (describes_foldl_add hashKey 150 peers).get_eq hp

/-- With one address on the point the order of the list does not matter. -/
theorem get_discovered_of_unique {a : String} (ha : a ∈ addrs)
    (hpoint : p ∈ points hashKey 150 a) (hunique : ∀ b ∈ addrs, p ∈ points hashKey 150 b → b = a) :
    (discovered hashKey self writeThrough minTTL peers).ring.get key = a := by
  rw [get_discovered hashKey self writeThrough minTTL h hp]
  cases hlast : (peers.filter fun a => p ∈ points hashKey 150 a).getLast? with
  | none =>
    have hmem : a ∈ peers.filter fun a => p ∈ points hashKey 150 a := by
      simpa using ⟨(h a).mpr ha, hpoint⟩
    rw [getLast?_eq_none_iff.mp hlast] at hmem
    exact absurd hmem not_mem_nil
  | some b =>
    obtain ⟨hb, hbpoint⟩ := mem_filter.mp (mem_of_getLast? hlast)
    exact hunique b ((h b).mp hb) (by simpa using hbpoint)

end

/-- Replicas whose lists name the same addresses agree on the owner of a key, and exactly
one of them takes itself for it, whatever the order of their lists, exactly when no two
addresses have a virtual node on the point the key falls on. -/
theorem replicas_agree_iff (hashKey : String → UInt32) (writeThrough : Bool) (minTTL : Int)
    (addrs : List String) (key : String) :
    ((∀ self self' peers peers', SameAddresses peers addrs → SameAddresses peers' addrs →
        (discovered hashKey self writeThrough minTTL peers).ring.get key =
          (discovered hashKey self' writeThrough minTTL peers').ring.get key) ∧
      (∀ view : String → List String, (∀ a ∈ addrs, SameAddresses (view a) addrs) → addrs ≠ [] →
        ∃! a, a ∈ addrs ∧ (discovered hashKey a writeThrough minTTL (view a)).isOwner key)) ↔
    ∀ p, IsNext (OnRing hashKey 150 addrs) (hashKey key) p →
      ∀ a ∈ addrs, ∀ b ∈ addrs, p ∈ points hashKey 150 a → p ∈ points hashKey 150 b → a = b := by
  constructor
  · rintro ⟨hagree, -⟩ p hp a ha b hb hpa hpb
    -- the same list with either of the two added once more at the end
    have hown : ∀ c ∈ addrs, p ∈ points hashKey 150 c →
        (discovered hashKey "" writeThrough minTTL (addrs ++ [c])).ring.get key = c := by
      intro c hc hpc
      rw [get_discovered hashKey "" writeThrough minTTL (sameAddresses_snoc hc) hp, filter_append,
        filter_cons_of_pos (by simpa using hpc)]
      simp
    calc a = (discovered hashKey "" writeThrough minTTL (addrs ++ [a])).ring.get key :=
          (hown a ha hpa).symm
      _ = (discovered hashKey "" writeThrough minTTL (addrs ++ [b])).ring.get key :=
          hagree "" "" _ _ (sameAddresses_snoc ha) (sameAddresses_snoc hb)
      _ = b := hown b hb hpb
  · intro hunique
    by_cases hne : addrs = []
    · refine ⟨fun self self' peers peers' h h' => ?_, fun _ _ h => absurd hne h⟩
      rw [hne] at h h'
      rw [h.eq_nil, h'.eq_nil]
      rfl
    · obtain ⟨p, hp⟩ := exists_isNext hashKey (by decide : 0 < 150) hne (hashKey key)
      obtain ⟨owner, howner, hpoint⟩ := hp.1
      have hget : ∀ self peers, SameAddresses peers addrs →
          (discovered hashKey self writeThrough minTTL peers).ring.get key = owner :=
        fun self peers h => get_discovered_of_unique hashKey self writeThrough minTTL h hp howner
          hpoint fun b hb hpb => hunique p hp b hb owner howner hpb hpoint
      refine ⟨fun self self' peers peers' h h' => ?_, fun view hview _ => ?_⟩
      · rw [hget self peers h, hget self' peers' h']
      · have hself : ∀ a ∈ addrs,
            ((discovered hashKey a writeThrough minTTL (view a)).isOwner key ↔ owner = a) := by
          intro a ha
          have hpeers : (discovered hashKey a writeThrough minTTL (view a)).peers ≠ [] :=
            fun hnil => hne ((hnil ▸ hview a ha : SameAddresses [] addrs).symm.eq_nil)
          simp only [isOwner, if_neg hpeers, hget a (view a) (hview a ha), decide_eq_true_eq]
          rfl
        refine ⟨owner, ⟨howner, (hself owner howner).mpr rfl⟩, fun a ha => ?_⟩
        exact ((hself a ha.1).mp ha.2).symm

/-- Two replicas configured with the same two addresses in different orders, under a hash
that puts a virtual node of both on one point: each takes itself for the owner. -/
theorem collision_gives_two_owners :
    let hashKey : String → UInt32 := fun _ => 0
    let first := discovered hashKey "10.0.2.34:3100" true 0
      (parsePeerList "10.0.2.40:3100,10.0.2.34:3100")
    let second := discovered hashKey "10.0.2.40:3100" true 0
      (parsePeerList "10.0.2.34:3100,10.0.2.40:3100")
    SameAddresses first.peers second.peers ∧ first.ring.get "k51" ≠ second.ring.get "k51" ∧
      first.isOwner "k51" = true ∧ second.isOwner "k51" = true := by
  intro hashKey first second
  have hfirst : first.peers = ["10.0.2.40:3100", "10.0.2.34:3100"] := by decide +kernel
  have hsecond : second.peers = ["10.0.2.34:3100", "10.0.2.40:3100"] := by decide +kernel
  have hpoint : ∀ a, 0 ∈ points hashKey 150 a := fun a =>
    mem_map.mpr ⟨0, mem_range.mpr (by decide), rfl⟩
  have hget : ∀ self front last,
      (discovered hashKey self true 0 (front ++ [last])).ring.get "k51" = last := by
    intro self front last
    have hnext : IsNext (OnRing hashKey 150 (front ++ [last])) (hashKey "k51") 0 :=
      ⟨⟨last, by simp, hpoint last⟩, .inl ⟨UInt32.le_refl 0, fun _ _ h => h⟩⟩
    rw [get_discovered hashKey self true 0 (fun _ => Iff.rfl) hnext]
    simp [hpoint]
  have hgetFirst : first.ring.get "k51" = "10.0.2.34:3100" := by
    rw [← hget "10.0.2.34:3100" ["10.0.2.40:3100"] "10.0.2.34:3100"]
    exact congrArg (fun peers => (discovered hashKey _ true 0 peers).ring.get "k51") hfirst
  have hgetSecond : second.ring.get "k51" = "10.0.2.40:3100" := by
    rw [← hget "10.0.2.40:3100" ["10.0.2.34:3100"] "10.0.2.40:3100"]
    exact congrArg (fun peers => (discovered hashKey _ true 0 peers).ring.get "k51") hsecond
  refine ⟨fun a => ?_, ?_, ?_, ?_⟩
  · rw [hfirst, hsecond]
    simp [or_comm]
  · rw [hgetFirst, hgetSecond]
    decide
  · simp only [isOwner, hfirst, hgetFirst]
    rfl
  · simp only [isOwner, hsecond, hgetSecond]
    rfl

end PeerCache

namespace HashRing

/-- `sort.Search` over the points of the ring. -/
def searchIndex (hr : HashRing) (key : String) : Nat :=
  search hr.ring.length fun i => hr.ring[i]?.any (· ≥ hr.hashKey key)

/-- `hashRing.get` as it is written, with the first point where the search ends behind the
last one. -/
def getBySearch (hr : HashRing) (key : String) : String :=
  if hr.ring.length = 0 then ""
  else
    ((hr.ring[if hr.searchIndex key = hr.ring.length then 0 else hr.searchIndex key]?).bind
      hr.nodeMap.find?).getD ""

/-- In a sorted ring the two agree. -/
theorem get_eq_getBySearch {hr : HashRing} (hsorted : hr.ring.Pairwise (· ≤ ·)) (key : String) :
    hr.get key = hr.getBySearch key := by
  have hmono : ∀ i j, i ≤ j → j < hr.ring.length →
      hr.ring[i]?.any (· ≥ hr.hashKey key) = true →
        hr.ring[j]?.any (· ≥ hr.hashKey key) = true := by
    intro i j hij hj hi
    rw [getElem?_eq_getElem (Nat.lt_of_le_of_lt hij hj)] at hi
    rw [getElem?_eq_getElem hj]
    have hle : hr.ring[i] ≤ hr.ring[j] := by
      rcases Nat.lt_or_eq_of_le hij with hlt | heq
      · exact pairwise_iff_getElem.mp hsorted i j _ hj hlt
      · simp only [heq, UInt32.le_refl]
    have hpass : hr.hashKey key ≤ hr.ring[i] := by simpa using hi
    simpa using UInt32.le_trans hpass hle
  have hfirst : FirstPass _ _ (hr.searchIndex key) := search_firstPass hmono
  have hfind := hfirst.getElem?_eq_find?
  rw [get, getBySearch]
  by_cases hempty : hr.ring.length = 0
  · have hnil := length_eq_zero_iff.mp hempty
    simp [hnil]
  · rw [if_neg hempty]
    by_cases hend : hr.searchIndex key = hr.ring.length
    · rw [hend, getElem?_eq_none (Nat.le_refl _)] at hfind
      rw [← hfind, Option.none_or, head?_eq_getElem?, if_pos hend]
      cases hr.ring[0]? <;> rfl
    · have hlt := Nat.lt_of_le_of_ne hfirst.le hend
      rw [if_neg hend, hfind]
      rw [getElem?_eq_getElem hlt] at hfind
      rw [← hfind, Option.some_or]
      rfl

variable (hashKey : String → UInt32) (vnodes : Nat)

theorem IsNext.mono {onRing onRing' : UInt32 → Prop} {h p : UInt32}
    (hnext : IsNext onRing' h p) (hsub : ∀ q, onRing q → onRing' q) (hp : onRing p) :
    IsNext onRing h p := by
  refine ⟨hp, ?_⟩
  rcases hnext.2 with habove | hwrap
  · exact .inl ⟨habove.1, fun q hq => habove.2 q (hsub q hq)⟩
  · exact .inr ⟨fun q hq => hwrap.1 q (hsub q hq), fun q hq => hwrap.2 q (hsub q hq)⟩

/-- The ring of a list of addresses. -/
def ofPeers (peers : List String) : HashRing := peers.foldl add (new hashKey vnodes)

/-- The search by halving finds what a scan of the ring finds. -/
theorem get_eq_getBySearch_ofPeers (peers : List String) (key : String) :
    (ofPeers hashKey vnodes peers).get key = (ofPeers hashKey vnodes peers).getBySearch key :=
  get_eq_getBySearch (describes_foldl_add hashKey vnodes peers).sorted key

variable {hashKey vnodes} {peers : List String}

/-- The last address added among those with a point on the ring owns it. -/
theorem OnRing.exists_owner {p : UInt32} (hp : OnRing hashKey vnodes peers p) :
    ∃ owner, (peers.filter fun a => p ∈ points hashKey vnodes a).getLast? = some owner := by
  obtain ⟨a, ha, hpa⟩ := hp
  have hmem : a ∈ peers.filter fun a => p ∈ points hashKey vnodes a := by simpa using ⟨ha, hpa⟩
  exact ⟨_, getLast?_eq_some_getLast (ne_nil_of_mem hmem)⟩

theorem get_mem (hpos : 0 < vnodes) (hne : peers ≠ []) (key : String) :
    (ofPeers hashKey vnodes peers).get key ∈ peers := by
  obtain ⟨p, hp⟩ := exists_isNext hashKey hpos hne (hashKey key)
  obtain ⟨owner, hlast⟩ := hp.1.exists_owner
  rw [ofPeers, (describes_foldl_add hashKey vnodes peers).get_eq hp, hlast]
  exact mem_of_mem_filter (mem_of_getLast? hlast)

theorem getLast?_filter_of_pos {α : Type} {xs : List α} {p : α → Bool} {a : α}
    (hlast : xs.getLast? = some a) (ha : p a = true) : (xs.filter p).getLast? = some a := by
  obtain ⟨front, hfront⟩ := getLast?_eq_some_iff.mp hlast
  rw [hfront, filter_append, filter_cons_of_pos ha, filter_nil]
  exact getLast?_concat

/-- Without an address, every key it does not own keeps its owner. -/
theorem get_filter_ne (hpos : 0 < vnodes) {addr : String} {key : String} (hpeers : peers ≠ [])
    (hother : (ofPeers hashKey vnodes peers).get key ≠ addr) :
    (ofPeers hashKey vnodes (peers.filter (· ≠ addr))).get key =
      (ofPeers hashKey vnodes peers).get key := by
  obtain ⟨p, hp⟩ := exists_isNext hashKey hpos hpeers (hashKey key)
  have hget := (describes_foldl_add hashKey vnodes peers).get_eq hp
  rw [← ofPeers] at hget
  obtain ⟨owner, hlast⟩ := hp.1.exists_owner
  rw [hlast, Option.getD_some] at hget
  rw [hget] at hother ⊢
  -- the owner stays on the list, so its point stays on the ring and is still the next one
  obtain ⟨howner, hpoint⟩ := mem_filter.mp (mem_of_getLast? hlast)
  have hstays : owner ∈ peers.filter (· ≠ addr) :=
    mem_filter.mpr ⟨howner, by simpa using hother⟩
  have hsub : ∀ q, OnRing hashKey vnodes (peers.filter (· ≠ addr)) q →
      OnRing hashKey vnodes peers q := by
    intro q hq
    obtain ⟨a, ha, hqa⟩ := hq
    exact ⟨a, mem_of_mem_filter ha, hqa⟩
  have hnext := hp.mono hsub ⟨owner, hstays, by simpa using hpoint⟩
  have hcomm : (peers.filter (· ≠ addr)).filter (fun a => p ∈ points hashKey vnodes a) =
      (peers.filter fun a => p ∈ points hashKey vnodes a).filter (· ≠ addr) := by
    rw [filter_filter, filter_filter]
    exact filter_congr fun a _ => Bool.and_comm _ _
  rw [ofPeers, (describes_foldl_add hashKey vnodes _).get_eq hnext, hcomm,
    getLast?_filter_of_pos hlast (by simpa using hother), Option.getD_some]

end HashRing

namespace PeerCache

open HashRing

/-- The address that a replica with this peer list takes for the owner of a key. -/
def ownerOf (hashKey : String → UInt32) (self : String) (writeThrough : Bool) (minTTL : Int)
    (peers : List String) (key : String) : String :=
  (discovered hashKey self writeThrough minTTL peers).ring.get key

/-- An address put into a list at any place takes keys over and moves no others; taking an
address out of a list gives away its keys and moves no others; and the owner of a key is
always an address of the list. -/
theorem inserted_peer_moves (hashKey : String → UInt32) (self : String) (writeThrough : Bool)
    (minTTL : Int) {before after peers : List String} {addr : String} (key : String)
    (hnew : addr ∉ before ++ after) (hpeers : peers ≠ []) :
    let owner := ownerOf hashKey self writeThrough minTTL
    (owner (before ++ addr :: after) key = addr ∨
        owner (before ++ addr :: after) key = owner (before ++ after) key) ∧
      (∀ gone, owner peers key ≠ gone →
        owner (peers.filter (· ≠ gone)) key = owner peers key) ∧
      owner peers key ∈ peers := by
  intro owner
  refine ⟨?_, fun gone hother => get_filter_ne (by decide) hpeers hother,
    get_mem (by decide) hpeers key⟩
  have hwithout : (before ++ addr :: after).filter (· ≠ addr) = before ++ after := by
    rw [mem_append, not_or] at hnew
    have hbefore : before.filter (· ≠ addr) = before :=
      filter_eq_self.mpr fun a ha => decide_eq_true (ne_of_mem_of_not_mem ha hnew.1)
    have hafter : after.filter (· ≠ addr) = after :=
      filter_eq_self.mpr fun a ha => decide_eq_true (ne_of_mem_of_not_mem ha hnew.2)
    rw [filter_append, filter_cons_of_neg (by simp), hbefore, hafter]
  by_cases hown : owner (before ++ addr :: after) key = addr
  · exact .inl hown
  · have hsame := get_filter_ne (by decide : 0 < 150) (by simp) hown
    rw [hwithout] at hsame
    exact .inr hsame.symm

/-- A third address between two others, under a hash by which all of them collide. -/
theorem inserted_peer_moves_three :
    let owner := ownerOf (fun _ => 7) "10.0.2.34:3100" true 0
    (owner (["a"] ++ "b" :: ["c"]) "key" = "b" ∨
        owner (["a"] ++ "b" :: ["c"]) "key" = owner (["a"] ++ ["c"]) "key") ∧
      (∀ gone, owner ["a", "b"] "key" ≠ gone →
        owner (["a", "b"].filter (· ≠ gone)) "key" = owner ["a", "b"] "key") ∧
      owner ["a", "b"] "key" ∈ ["a", "b"] :=
  inserted_peer_moves (fun _ => 7) "10.0.2.34:3100" true 0 "key" (by decide) (by decide)

end PeerCache

end LokiVlProxy.Cache
