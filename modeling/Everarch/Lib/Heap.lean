import Everarch.Lib.Bytes
import Mathlib.Data.Finset.Card
import Mathlib.Order.Interval.Finset.Nat

/-!
# Byte memory with allocated regions

Memory is a byte for each address. An allocator gives out regions of it that lie apart from each
other and within the address space; where, and what the memory holds there, is not known.

* `load_fill_self`, `AgreeOutside.load`: reading back what was written, and what was not.
* `loadWord_storeWord`: the same for words of eight bytes.
* `Heap.malloc_eq_some`: what is known of a region that is given out.
* `sum_size_le`: regions that lie apart fit into the space together.
-/

namespace Everarch

/-! ## Regions -/

/-- The `size` bytes from `base` on. -/
structure Region where
  base : Nat
  size : Nat
deriving DecidableEq

namespace Region

variable {r r' q q' : Region}

/-- The regions share no byte. -/
def Apart (r r' : Region) : Prop :=
  r.base + r.size ≤ r'.base ∨ r'.base + r'.size ≤ r.base

instance (r r' : Region) : Decidable (r.Apart r') :=
  inferInstanceAs (Decidable (_ ∨ _))

/-- The bytes of the first region are bytes of the second. -/
def Within (r r' : Region) : Prop :=
  r'.base ≤ r.base ∧ r.base + r.size ≤ r'.base + r'.size

theorem Within.refl : r.Within r :=
  ⟨Nat.le_refl _, Nat.le_refl _⟩

theorem Within.trans (h : r.Within q) (h' : q.Within r') : r.Within r' :=
  ⟨h'.1.trans h.1, h.2.trans h'.2⟩

theorem Apart.symm (h : r.Apart r') : r'.Apart r :=
  Or.symm h

theorem Apart.mono (h : r.Apart r') (hq : q.Within r) (hq' : q'.Within r') : q.Apart q' :=
  h.imp (fun h => hq.2.trans (h.trans hq'.1)) fun h => hq'.2.trans (h.trans hq.1)

end Region

section Space

variable {rs : List Region}

/-- The addresses of regions. -/
def occupied : List Region → Finset Nat
  | [] => ∅
  | r :: rs => Finset.Ico r.base (r.base + r.size) ∪ occupied rs

theorem mem_occupied {a : Nat} :
    a ∈ occupied rs ↔ ∃ r ∈ rs, r.base ≤ a ∧ a < r.base + r.size := by
  induction rs with
  | nil => simp [occupied]
  | cons r rs ih => simp [occupied, ih]

theorem card_occupied (h : rs.Pairwise Region.Apart) :
    (occupied rs).card = (rs.map Region.size).sum := by
  induction rs with
  | nil => rfl
  | cons r rs ih =>
    obtain ⟨hr, hrs⟩ := List.pairwise_cons.mp h
    have hdisjoint : Disjoint (Finset.Ico r.base (r.base + r.size)) (occupied rs) := by
      refine Finset.disjoint_left.mpr fun a ha ha' => ?_
      obtain ⟨r', hr', hlo, hhi⟩ := mem_occupied.mp ha'
      obtain ⟨hlo', hhi'⟩ := Finset.mem_Ico.mp ha
      rcases hr r' hr' with hle | hle
      · exact absurd hhi' (Nat.not_lt.mpr (hle.trans hlo))
      · exact absurd hhi (Nat.not_lt.mpr (hle.trans hlo'))
    rw [occupied, Finset.card_union_of_disjoint hdisjoint, Nat.card_Ico, ih hrs, List.map_cons,
      List.sum_cons, Nat.add_sub_cancel_left]

/-- Regions that lie apart fit into the space together. -/
theorem sum_size_le (space : Nat) (h : rs.Pairwise Region.Apart)
    (hspace : ∀ r ∈ rs, r.base + r.size ≤ space) : (rs.map Region.size).sum ≤ space := by
  have hsub : occupied rs ⊆ Finset.range space := by
    intro a ha
    obtain ⟨r, hr, -, hhi⟩ := mem_occupied.mp ha
    exact Finset.mem_range.mpr (hhi.trans_le (hspace r hr))
  rw [← card_occupied h]
  exact (Finset.card_le_card hsub).trans_eq (Finset.card_range space)

end Space

/-! ## Bytes and words -/

section Memory

variable {m m' m'' : Nat → UInt8} {r q : Region} {a b k v : Nat}

/-- Memory with the `n` bytes of `f` written from `a` on. -/
def fill (m : Nat → UInt8) (a n : Nat) (f : Nat → UInt8) : Nat → UInt8 :=
  fun x => if a ≤ x ∧ x < a + n then f (x - a) else m x

/-- The `n` bytes from `a` on. -/
def load (m : Nat → UInt8) (a n : Nat) : Bytes :=
  (List.range n).map fun i => m (a + i)

/-- The bytes of a word. -/
def wordSize : Nat := 8

/-- The word at `a`, the least significant byte first. -/
def loadWord (m : Nat → UInt8) (a : Nat) : Nat :=
  ofBeBytes (load m a wordSize).reverse

/-- Memory with a word written at `a`. -/
def storeWord (m : Nat → UInt8) (a v : Nat) : Nat → UInt8 :=
  fill m a wordSize fun i => (beBytes wordSize v).reverse.getD i 0

theorem load_fill_self (m : Nat → UInt8) (a n : Nat) (f : Nat → UInt8) :
    load (fill m a n f) a n = (List.range n).map f := by
  refine List.map_congr_left fun i hi => ?_
  have hlt := List.mem_range.mp hi
  rw [fill, if_pos ⟨Nat.le_add_right a i, Nat.add_lt_add_left hlt a⟩, Nat.add_sub_cancel_left]

/-- The memories differ at most in a region. -/
def AgreeOutside (r : Region) (m m' : Nat → UInt8) : Prop :=
  ∀ x, x < r.base ∨ r.base + r.size ≤ x → m' x = m x

theorem agreeOutside_fill (m : Nat → UInt8) (a n : Nat) (f : Nat → UInt8) :
    AgreeOutside ⟨a, n⟩ m (fill m a n f) := by
  intro x hx
  rw [fill, if_neg]
  rintro ⟨hlo, hhi⟩
  rcases hx with hlt | hle
  · exact Nat.not_lt.mpr hlo hlt
  · exact Nat.not_lt.mpr hle hhi

theorem agreeOutside_storeWord (m : Nat → UInt8) (a v : Nat) :
    AgreeOutside ⟨a, wordSize⟩ m (storeWord m a v) :=
  agreeOutside_fill m a wordSize _

theorem AgreeOutside.trans (h : AgreeOutside r m m') (h' : AgreeOutside r m' m'') :
    AgreeOutside r m m'' :=
  fun x hx => (h' x hx).trans (h x hx)

theorem AgreeOutside.mono (h : AgreeOutside q m m') (hq : q.Within r) : AgreeOutside r m m' :=
  fun x hx => h x (hx.imp (fun hlt => hlt.trans_le hq.1) fun hle => hq.2.trans hle)

theorem AgreeOutside.load (h : AgreeOutside r m m') (hapart : Region.Apart ⟨b, k⟩ r) :
    load m' b k = load m b k := by
  refine List.map_congr_left fun i hi => h _ ?_
  have hlt := Nat.add_lt_add_left (List.mem_range.mp hi) b
  exact hapart.imp (fun hle => hlt.trans_le hle) fun hle => hle.trans (Nat.le_add_right b i)

theorem AgreeOutside.loadWord (h : AgreeOutside r m m')
    (hapart : Region.Apart ⟨b, wordSize⟩ r) : loadWord m' b = loadWord m b := by
  rw [Everarch.loadWord, h.load hapart, Everarch.loadWord]

theorem loadWord_storeWord (m : Nat → UInt8) (a : Nat) (hv : v < 256 ^ wordSize) :
    loadWord (storeWord m a v) a = v := by
  have hbytes : ∀ l : Bytes, (List.range l.length).map (fun i => l.getD i 0) = l := by
    intro l
    refine List.ext_getElem (by simp) fun i hi hi' => ?_
    simp [hi']
  have hword := hbytes (beBytes wordSize v).reverse
  rw [List.length_reverse, length_beBytes] at hword
  rw [loadWord, storeWord, load_fill_self, hword, List.reverse_reverse, ofBeBytes_beBytes hv]

end Memory

/-! ## Allocation -/

/-- Memory and the regions of it that are given out. -/
structure Heap where
  bytes : Nat → UInt8
  regions : List Region

/-- Where the allocator finds a region, and what the memory holds there. -/
structure Grant where
  base : Nat
  junk : Nat → UInt8

/-- `malloc` in a space of so many addresses. It refuses where the grant is not free. -/
def Heap.malloc (space : Nat) (h : Heap) (grant : Grant) (size : Nat) : Option Heap :=
  if 0 < grant.base ∧ grant.base + size < space ∧
      ∀ r ∈ h.regions, Region.Apart ⟨grant.base, size⟩ r then
    some ⟨fill h.bytes grant.base size grant.junk, ⟨grant.base, size⟩ :: h.regions⟩
  else none

theorem Heap.malloc_eq_some {space size : Nat} {h h' : Heap} {grant : Grant}
    (heq : h.malloc space grant size = some h') :
    0 < grant.base ∧ grant.base + size < space ∧
      (∀ r ∈ h.regions, Region.Apart ⟨grant.base, size⟩ r) ∧
      h' = ⟨fill h.bytes grant.base size grant.junk, ⟨grant.base, size⟩ :: h.regions⟩ := by
  unfold Heap.malloc at heq
  split_ifs at heq with hfree
  exact ⟨hfree.1, hfree.2.1, hfree.2.2, (Option.some.inj heq).symm⟩

end Everarch
