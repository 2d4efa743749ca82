import Mos6502.Bus
import Mos6502.Effects.Stores

/-!
# Loading images

An image is stored byte by byte from its address on. The index wraps, so of an image of
more than 64 KiB the last byte for each address stays.
-/

namespace Mos6502

open Effects

namespace FlatBus

/-- The stores of an image, from byte `k` on. -/
def imageStores (addr : U16) (k : ℕ) (data : List U8) : List (U16 × U8) :=
  (data.zipIdx k).map fun p => (BitVec.ofNat 16 (addr.toNat + p.2), p.1)

theorem loadFrom_eq (addr : U16) (k : ℕ) (data : List U8) (mem : Memory) :
    loadFrom addr k data mem = storeAll mem (imageStores addr k data) := by
  induction data generalizing k mem with
  | nil => rfl
  | cons byte data ih =>
    rw [loadFrom, ih, imageStores, imageStores, List.zipIdx_cons, List.map_cons, storeAll_cons]

theorem length_imageStores (addr : U16) (k : ℕ) (data : List U8) :
    (imageStores addr k data).length = data.length := by
  rw [imageStores, List.length_map, List.length_zipIdx]

theorem getElem_imageStores (addr : U16) (data : List U8) {k : ℕ}
    (hk : k < (imageStores addr 0 data).length) (hk' : k < data.length) :
    (imageStores addr 0 data)[k] = (BitVec.ofNat 16 (addr.toNat + k), data[k]) := by
  simp [imageStores]

/-- Bytes further into the image are those of an image at a higher address. -/
theorem imageStores_add (addr : U16) (k : ℕ) (data : List U8) :
    imageStores addr k data = imageStores (addr + BitVec.ofNat 16 k) 0 data := by
  have hindex (j : ℕ) : BitVec.ofNat 16 (addr.toNat + (k + j)) =
      BitVec.ofNat 16 ((addr + BitVec.ofNat 16 k).toNat + j) := by
    apply BitVec.eq_of_toNat_eq
    simp only [BitVec.toNat_ofNat, BitVec.toNat_add]
    omega
  rw [imageStores, imageStores, List.zipIdx_eq_map_add, List.map_map]
  refine List.map_congr_left fun p _ => ?_
  simp only [Function.comp_apply, hindex]

/-- The address of byte `k` of an image. -/
theorem ofNat_eq_iff (addr m : U16) (k : ℕ) :
    BitVec.ofNat 16 (addr.toNat + k) = m ↔ (addr.toNat + k) % 65536 = m.toNat := by
  rw [← BitVec.toNat_inj, BitVec.toNat_ofNat]

end FlatBus

/-- **Loading an image.** An address holds the last byte of the image that falls on it, and
its previous byte if none does; the cycle counter stays; and an image can be loaded in
two parts. -/
theorem load_places (b : FlatBus) (addr : U16) (data : List U8) :
    (b.load addr data).cycles = b.cycles ∧
    (∀ m : U16,
      (∀ k (hk : k < data.length), (addr.toNat + k) % 65536 = m.toNat →
        (∀ j < data.length, k < j → (addr.toNat + j) % 65536 ≠ m.toNat) →
          (b.load addr data).memory m = data[k]) ∧
      ((∀ k < data.length, (addr.toNat + k) % 65536 ≠ m.toNat) →
        (b.load addr data).memory m = b.memory m)) ∧
    ∀ data₁ data₂, b.load addr (data₁ ++ data₂) =
      (b.load addr data₁).load (addr + BitVec.ofNat 16 data₁.length) data₂ := by
  have hmemory (m : U16) : (b.load addr data).memory m =
      (lastStore (FlatBus.imageStores addr 0 data) m).getD (b.memory m) := by
    rw [← storeAll_apply, ← FlatBus.loadFrom_eq]
    rfl
  have hlength := FlatBus.length_imageStores addr 0 data
  refine ⟨rfl, fun m => ⟨fun k hk haddr hlast => ?_, fun hnone => ?_⟩, ?_⟩
  · have hstore : lastStore (FlatBus.imageStores addr 0 data) m = some data[k] := by
      rw [lastStore_eq_some (i := k) (by omega)]
      · rw [FlatBus.getElem_imageStores addr data _ hk]
      · rw [FlatBus.getElem_imageStores addr data _ hk, FlatBus.ofNat_eq_iff]
        exact haddr
      · intro j hj hkj
        rw [FlatBus.getElem_imageStores addr data hj (by omega), ne_eq, FlatBus.ofNat_eq_iff]
        exact hlast j (by omega) hkj
    rw [hmemory, hstore]
    rfl
  · have hstore : lastStore (FlatBus.imageStores addr 0 data) m = none := by
      refine lastStore_eq_none fun s hs => ?_
      obtain ⟨k, hk, rfl⟩ := List.mem_iff_getElem.mp hs
      rw [FlatBus.getElem_imageStores addr data hk (by omega), ne_eq, FlatBus.ofNat_eq_iff]
      exact hnone k (by omega)
    rw [hmemory, hstore]
    rfl
  · intro data₁ data₂
    have hsplit : FlatBus.imageStores addr 0 (data₁ ++ data₂) =
        FlatBus.imageStores addr 0 data₁ ++
          FlatBus.imageStores (addr + BitVec.ofNat 16 data₁.length) 0 data₂ := by
      rw [← FlatBus.imageStores_add, FlatBus.imageStores, List.zipIdx_append, List.map_append,
        Nat.zero_add]
      rfl
    simp only [FlatBus.load, FlatBus.loadFrom_eq, hsplit, storeAll_append]

/-- An image of two bytes at the end of memory: the second one wraps. -/
example : (({} : FlatBus).load 0xFFFF [0x11, 0x22]).memory 0x0000 = 0x22 := by decide

end Mos6502
