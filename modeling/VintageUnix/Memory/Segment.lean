/-! A segment: one buffer of exactly 65536 bytes, indexed by a word. Every address is in
range, so reading and writing never fail and address arithmetic wraps at the top. -/
namespace VintageUnix

/-- The number of bytes in every segment. -/
def segmentSize : Nat := 0x10000

/-- A buffer of 65536 bytes. -/
structure Segment where
  buffer : ByteArray
  size_buffer : buffer.size = segmentSize

namespace Segment

theorem toNat_lt_segmentSize (address : UInt16) : address.toNat < segmentSize :=
  address.toNat_lt

/-- The byte at `address`. -/
def get (s : Segment) (address : UInt16) : UInt8 :=
  s.buffer.get address.toNat (s.size_buffer ▸ toNat_lt_segmentSize address)

/-- The segment with the byte at `address` replaced. -/
def set (s : Segment) (address : UInt16) (value : UInt8) : Segment where
  buffer := s.buffer.set address.toNat value (s.size_buffer ▸ toNat_lt_segmentSize address)
  size_buffer := (Array.size_set _).trans s.size_buffer

/-- The segment that holds zeros only. -/
def zero : Segment where
  buffer := ⟨Array.replicate segmentSize 0⟩
  size_buffer := Array.size_replicate

instance : Inhabited Segment := ⟨zero⟩

theorem get_set (s : Segment) (a b : UInt16) (v : UInt8) :
    (s.set a v).get b = if a = b then v else s.get b := by
  obtain ⟨⟨x⟩, hx⟩ := s
  have hSize : x.size = segmentSize := hx
  have ha : a.toNat < x.size := hSize ▸ toNat_lt_segmentSize a
  have hb : b.toNat < x.size := hSize ▸ toNat_lt_segmentSize b
  have h := Array.getElem_set (v := v) ha ((Array.size_set ha).symm ▸ hb)
  simp only [UInt16.toNat_inj] at h
  exact h

theorem get_zero (a : UInt16) : zero.get a = 0 :=
  Array.getElem_replicate _

/-- Segments that agree at every address are equal. -/
theorem ext_get {s t : Segment} (h : ∀ a, s.get a = t.get a) : s = t := by
  obtain ⟨⟨x⟩, hx⟩ := s
  obtain ⟨⟨y⟩, hy⟩ := t
  have hx' : x.size = 65536 := hx
  have hy' : y.size = 65536 := hy
  congr
  apply Array.ext (hx'.trans hy'.symm)
  intro i hi hi'
  have hToNat : (UInt16.ofNat i).toNat = i := UInt16.toNat_ofNat_of_lt' (by
    simpa [UInt16.size] using hx' ▸ hi)
  have hInX : (UInt16.ofNat i).toNat < x.size := hToNat.symm ▸ hi
  have hInY : (UInt16.ofNat i).toNat < y.size := hToNat.symm ▸ hi'
  have hAt : x[(UInt16.ofNat i).toNat] = y[(UInt16.ofNat i).toNat] := h (UInt16.ofNat i)
  simpa only [hToNat] using hAt

/-- The bytes at `address` and after it, `count` of them, wrapping at the top. -/
def read (s : Segment) (address : UInt16) : Nat → List UInt8
  | 0 => []
  | count + 1 => s.get address :: s.read (address + 1) count

theorem read_add (s : Segment) (address : UInt16) (first second : Nat) :
    s.read address (first + second) =
      s.read address first ++ s.read (address + .ofNat first) second := by
  induction first generalizing address with
  | zero => simp [read]
  | succ first ih =>
      have hNext : address + 1 + .ofNat first = address + .ofNat (first + 1) := by
        rw [UInt16.ofNat_add]
        grind
      rw [Nat.add_right_comm, read, read, ih, hNext, List.cons_append]

/-- The segment with `bytes` stored from `address` on, wrapping at the top. -/
def write (s : Segment) (address : UInt16) : List UInt8 → Segment
  | [] => s
  | b :: rest => (s.set address b).write (address + 1) rest

end Segment
end VintageUnix
