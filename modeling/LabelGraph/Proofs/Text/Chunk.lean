import LabelGraph.Proofs.Text.Stray
import Mathlib.Data.List.Chain

/-!
A text in chunks: a run of characters, and then a broken sequence of bytes, which is given up
as a whole. It takes the bytes that could still go on in a character. None of them can start
one. So the chunks hold the same characters and the same stray bytes as a text that is decoded
byte by byte.
-/

namespace LabelGraph

/-- A run of characters and the broken sequence that ends it. Either of them may be empty. -/
structure Chunk where
  valid : List Char
  invalid : List UInt8
deriving DecidableEq, Repr

def Chunk.atoms (chunk : Chunk) : List Atom :=
  chunk.valid.map .char ++ chunk.invalid.map .stray

namespace Chunk

/-- The broken sequences of the first chunks, as far as these hold nothing else. -/
def strays (chunks : List Chunk) : List UInt8 :=
  (chunks.takeWhile (·.valid.isEmpty)).flatMap (·.invalid)

theorem atoms_strays (chunks : List Chunk) :
    chunks.flatMap atoms = (strays chunks).map .stray ++
      (chunks.dropWhile (·.valid.isEmpty)).flatMap atoms := by
  induction chunks with
  | nil => rfl
  | cons chunk chunks ih =>
    by_cases hvalid : chunk.valid.isEmpty
    · have hatoms : chunk.atoms = chunk.invalid.map .stray := by
        rw [atoms, List.isEmpty_iff.1 hvalid]
        rfl
      rw [strays, List.takeWhile_cons, List.dropWhile_cons, if_pos hvalid, if_pos hvalid,
        List.flatMap_cons, List.flatMap_cons, List.map_append, List.append_assoc, hatoms, ih,
        strays]
    · rw [strays, List.takeWhile_cons, List.dropWhile_cons, if_neg hvalid, if_neg hvalid]
      rfl

/-- Behind these broken sequences stands a character, if anything does. -/
theorem not_stray_behind (chunks : List Chunk) (b : UInt8) (more : List Atom) :
    (chunks.dropWhile (·.valid.isEmpty)).flatMap atoms ≠ .stray b :: more := by
  intro hstray
  have hfirst := List.head?_dropWhile_not (fun c : Chunk => c.valid.isEmpty) chunks
  cases hothers : chunks.dropWhile (·.valid.isEmpty) with
  | nil =>
    rw [hothers] at hstray
    cases hstray
  | cons chunk others =>
    rw [hothers] at hfirst
    rw [hothers, List.flatMap_cons, atoms] at hstray
    cases hvalid : chunk.valid with
    | nil =>
      have hnone : chunk.valid.isEmpty := List.isEmpty_iff.2 hvalid
      exact Bool.noConfusion (hnone.symm.trans hfirst)
    | cons c valid =>
      rw [hvalid] at hstray
      cases hstray

end Chunk

namespace Utf8

/-- The number of bytes that go on in a character, within their bounds. -/
def fitting : List (UInt8 × UInt8) → List UInt8 → Nat
  | (low, high) :: bounds, b :: bytes =>
    if low ≤ b ∧ b ≤ high then fitting bounds bytes + 1 else 0
  | _, _ => 0

def brokenAfter (lead : UInt8) (bytes : List UInt8) : Nat :=
  match lead? lead with
  | some (_, bounds) => fitting bounds bytes
  | none => 0

/-- The chunks of the bytes. The characters of the first one that are already read are in
reverse. -/
def chunksAfter (read : List Char) : List UInt8 → List Chunk
  | [] => if read.isEmpty then [] else [{ valid := read.reverse, invalid := [] }]
  | lead :: bytes =>
    match _found : char? lead bytes with
    | some (c, rest) => chunksAfter (c :: read) rest
    | none =>
      { valid := read.reverse, invalid := lead :: bytes.take (brokenAfter lead bytes) } ::
        chunksAfter [] (bytes.drop (brokenAfter lead bytes))
termination_by bytes => bytes.length
decreasing_by
  · have := length_of_char? _found
    simp only [List.length_cons]
    omega
  · simp only [List.length_drop, List.length_cons]
    omega

def chunks (source : List UInt8) : List Chunk := chunksAfter [] source

theorem bounds_of_lead {b : UInt8} {value : Nat} {bounds : List (UInt8 × UInt8)}
    (h : lead? b = some (value, bounds)) : ∀ bound ∈ bounds, 0x80 ≤ bound.1 ∧ bound.2 ≤ 0xBF := by
  have hbounds (value' : Nat) (bounds' : List (UInt8 × UInt8))
      (heq : some (value', bounds') = some (value, bounds)) : bounds' = bounds :=
    (Prod.mk.inj (Option.some.inj heq)).2
  unfold lead? at h
  simp only at h
  split at h
  · rw [← hbounds _ _ h]
    exact List.forall_mem_nil _
  split at h
  · cases h
  split at h
  · rw [← hbounds _ _ h]
    exact List.forall_mem_singleton.2 (by decide)
  split at h
  · rw [← hbounds _ _ h]
    refine List.forall_mem_cons.2 ⟨?_, by simp⟩
    split <;> split <;> decide
  split at h
  · rw [← hbounds _ _ h]
    refine List.forall_mem_cons.2 ⟨?_, by simp⟩
    split <;> split <;> decide
  · cases h

/-- A byte that goes on in a character starts none. -/
theorem decode_fitting {bounds : List (UInt8 × UInt8)}
    (hbounds : ∀ bound ∈ bounds, 0x80 ≤ bound.1 ∧ bound.2 ≤ 0xBF) (bytes : List UInt8) :
    decode bytes = (bytes.take (fitting bounds bytes)).map .stray ++
      decode (bytes.drop (fitting bounds bytes)) := by
  fun_induction fitting bounds bytes with
  | case1 low high bounds b bytes hfits ih =>
    obtain ⟨⟨hlow, hhigh⟩, hbounds⟩ := List.forall_mem_cons.1 hbounds
    have hnone : lead? b = none := by
      have hfirst := UInt8.le_iff_toNat_le.1 (UInt8.le_trans hlow hfits.1)
      have hlast := UInt8.le_iff_toNat_le.1 (UInt8.le_trans hfits.2 hhigh)
      exact lead?_none (.inl ⟨hfirst, Nat.lt_of_le_of_lt hlast (by decide)⟩)
    rw [decode_stray (by rw [char?, hnone]), ih hbounds]
    rfl
  | case2 => rfl
  | case3 => rfl

theorem decode_broken {lead : UInt8} {bytes : List UInt8} (h : char? lead bytes = none) :
    decode (lead :: bytes) = .stray lead ::
      ((bytes.take (brokenAfter lead bytes)).map .stray ++
        decode (bytes.drop (brokenAfter lead bytes))) := by
  rw [decode_stray h, brokenAfter]
  cases hlead : lead? lead with
  | none => rfl
  | some found => rw [← decode_fitting (bounds_of_lead hlead)]

theorem atoms_chunksAfter (read : List Char) (bytes : List UInt8) :
    (chunksAfter read bytes).flatMap Chunk.atoms = read.reverse.map .char ++ decode bytes := by
  fun_induction chunksAfter read bytes with
  | case1 read hread =>
    rw [List.isEmpty_iff.1 hread, decode_nil]
    rfl
  | case2 read hread =>
    rw [decode_nil, List.flatMap_singleton]
    rfl
  | case3 read lead bytes c rest found ih =>
    rw [ih, decode_char found, List.reverse_cons, List.map_append, List.append_assoc]
    rfl
  | case4 read lead bytes found ih =>
    rw [List.flatMap_cons, ih, decode_broken found, Chunk.atoms, List.append_assoc]
    rfl

/-- The chunks of a text hold what it is decoded to. -/
@[simp] theorem atoms_chunks (source : List UInt8) :
    (chunks source).flatMap Chunk.atoms = decode source :=
  atoms_chunksAfter [] source

theorem chain_chunksAfter (read : List Char) (bytes : List UInt8) :
    (chunksAfter read bytes).IsChain fun c _ => c.invalid ≠ [] := by
  fun_induction chunksAfter read bytes with
  | case1 read hread => exact .nil
  | case2 read hread => exact .singleton _
  | case3 read lead bytes c rest found ih => exact ih
  | case4 read lead bytes found ih => exact ih.cons fun _ _ => List.cons_ne_nil _ _

end Utf8

end LabelGraph
