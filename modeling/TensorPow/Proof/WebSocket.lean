import TensorPow.Spec.WebSocket

/-!
# WebSocket frames

A frame is read exactly from the bytes that a client sends for it, whatever mask it uses and
whatever pieces the socket delivers them in.

* `maskedFrame`: the bytes of a frame.
* `readWebsocketFrame_iff`: the frames that are read.
-/

namespace TensorPow

namespace WebSocket

open Wire Stream

/-! ## Numbers and masks -/

theorem ofBe_append_singleton (b : Bytes) (x : Byte) : ofBe (b ++ [x]) = 256 * ofBe b + x.val := by
  induction b with
  | nil => simp [ofBe]
  | cons y b ih =>
    simp only [List.cons_append, ofBe, List.length_append, List.length_cons, List.length_nil, ih]
    ring

theorem ofBe_reverse (b : Bytes) : ofBe b.reverse = ofLe b := by
  induction b with
  | nil => rfl
  | cons x b ih =>
    rw [List.reverse_cons, ofBe_append_singleton, ih]
    simp only [ofLe]
    ring

@[simp] theorem length_be (width n : ℕ) : (be width n).length = width := by simp [be]

theorem ofBe_be {width n : ℕ} (h : n < 256 ^ width) : ofBe (be width n) = n := by
  unfold be
  rw [ofBe_reverse, ofLe_le_of_lt h]

theorem be_ofBe (b : Bytes) : be b.length (ofBe b) = b := by
  have h := le_ofLe b.reverse
  rw [← ofBe_reverse, List.reverse_reverse, List.length_reverse] at h
  unfold be
  rw [h, List.reverse_reverse]

@[simp] theorem length_unmask (mask payload : Bytes) : (unmask mask payload).length = payload.length := by
  simp [unmask]

theorem unmask_unmask (mask payload : Bytes) : unmask mask (unmask mask payload) = payload := by
  apply List.ext_getElem
  · simp
  · intro i h₁ h₂
    simp only [unmask, List.getElem_mapIdx]
    rw [Fin.xor_assoc (n := 8) rfl, Fin.xor_self, Fin.xor_zero]

/-! ## Frames -/

/-- The bytes a client sends for a frame. -/
def maskedFrame (mask : FixedBytes 4) (f : WebSocketFrame) : Bytes :=
  Fin.ofNat 256 ((if f.fin then 0x80 else 0) + f.opcode) :: (lengthBytes 0x80 f.payload.length ++ mask.bytes ++
    unmask mask.bytes f.payload)

/-- A frame that a client may send. -/
structure WebSocketFrame.Allowed (maxPayloadBytes : ℕ) (f : WebSocketFrame) : Prop where
  opcode_lt : f.opcode < 16
  length_le : f.payload.length ≤ maxPayloadBytes
  length_lt : f.payload.length < 2 ^ 63
  control : f.opcode ∈ controlOpcodes → f.fin = true ∧ f.payload.length ≤ 125

theorem first_byte : ∀ b : Byte, b.val &&& 0x70 = 0 →
    b = Fin.ofNat 256 ((if decide (b.val &&& 0x80 ≠ 0) then 0x80 else 0) + (b.val &&& 0x0F)) ∧ b.val &&& 0x0F < 16 := by
  decide +kernel

theorem second_byte : ∀ b : Byte, b.val &&& 0x80 ≠ 0 →
    b = Fin.ofNat 256 (0x80 + (b.val &&& 0x7F)) ∧ b.val &&& 0x7F < 128 := by
  decide +kernel

theorem first_byte_bits : ∀ (fin : Bool) (opcode : Fin 16),
    let b := Fin.ofNat 256 ((if fin then 0x80 else 0) + opcode.val)
    b.val &&& 0x70 = 0 ∧ decide (b.val &&& 0x80 ≠ 0) = fin ∧ b.val &&& 0x0F = opcode.val := by
  decide +kernel

theorem second_byte_bits : ∀ c : Fin 128,
    let b := Fin.ofNat 256 (0x80 + c.val)
    b.val &&& 0x80 ≠ 0 ∧ b.val &&& 0x7F = c.val := by
  decide +kernel

/-- A length that was read has the code and the bytes it is written with. -/
theorem readLength_ok {code n : ℕ} {l r : Bytes} (hcode : code < 128)
    (h : (readLength code).parse .closed l = .ok (n, r)) :
    Fin.ofNat 256 (0x80 + code) :: l = lengthBytes 0x80 n ++ r ∧ n < 2 ^ 63 ∧ (code ≤ 125 → n = code) ∧ (n ≤ 125 → code = n) := by
  unfold readLength at h
  by_cases h126 : code = 126
  · rw [if_pos h126] at h
    obtain ⟨extended, l₁, htake, h₁⟩ := Ask.parse_bind_ok.1 h
    obtain ⟨hlen, rfl⟩ := Ask.parse_take_ok.1 htake
    obtain ⟨u, l₂, hensure, h₂⟩ := Ask.parse_bind_ok.1 h₁
    obtain ⟨hlow, rfl⟩ := Ask.parse_ensure_ok.1 hensure
    obtain ⟨rfl, rfl⟩ := Ask.parse_pure_ok.1 h₂
    have hlt := ofBe_lt extended
    rw [hlen] at hlt
    have hbytes := be_ofBe extended
    rw [hlen] at hbytes
    refine ⟨?_, by omega, by omega, by omega⟩
    unfold lengthBytes
    rw [if_neg (by omega), if_pos (by omega), hbytes, h126]
    rfl
  · rw [if_neg h126] at h
    by_cases h127 : code = 127
    · rw [if_pos h127] at h
      obtain ⟨extended, l₁, htake, h₃⟩ := Ask.parse_bind_ok.1 h
      obtain ⟨hlen, rfl⟩ := Ask.parse_take_ok.1 htake
      obtain ⟨u, l₂, hensure, h₄⟩ := Ask.parse_bind_ok.1 h₃
      obtain ⟨⟨hlow, hhigh⟩, rfl⟩ := Ask.parse_ensure_ok.1 hensure
      obtain ⟨rfl, rfl⟩ := Ask.parse_pure_ok.1 h₄
      have hbytes := be_ofBe extended
      rw [hlen] at hbytes
      refine ⟨?_, hhigh, by omega, by omega⟩
      unfold lengthBytes
      rw [if_neg (by omega), if_neg (by omega), hbytes, h127]
      rfl
    · rw [if_neg h127] at h
      obtain ⟨rfl, rfl⟩ := Ask.parse_pure_ok.1 h
      refine ⟨?_, by omega, fun _ => rfl, fun _ => rfl⟩
      unfold lengthBytes
      rw [if_pos (by omega)]
      rfl

/-- The code of a length, and how it is read. -/
theorem exists_readLength (maskBit : ℕ) {n : ℕ} (hn : n < 2 ^ 63) (r : Bytes) :
    ∃ code < 128, ∃ l, lengthBytes maskBit n ++ r = Fin.ofNat 256 (maskBit + code) :: l ∧
      (readLength code).parse .closed l = .ok (n, r) ∧ (n ≤ 125 → code = n) := by
  unfold lengthBytes
  by_cases h125 : n ≤ 125
  · refine ⟨n, by omega, r, by rw [if_pos h125]; rfl, ?_, fun _ => rfl⟩
    unfold readLength
    rw [if_neg (by omega), if_neg (by omega)]
    rfl
  · rw [if_neg h125]
    by_cases hshort : n ≤ 0xFFFF
    · have hvalue : ofBe (be 2 n) = n := ofBe_be (by omega)
      refine ⟨126, by omega, be 2 n ++ r, by rw [if_pos hshort]; rfl, ?_, by omega⟩
      unfold readLength
      rw [if_pos rfl]
      refine Ask.parse_bind_ok.2 ⟨be 2 n, r, Ask.parse_take_ok.2 ⟨length_be 2 n, rfl⟩, ?_⟩
      rw [hvalue]
      exact Ask.parse_bind_ok.2 ⟨(), r, Ask.parse_ensure_ok.2 ⟨by omega, rfl⟩, rfl⟩
    · have hvalue : ofBe (be 8 n) = n := ofBe_be (by omega)
      refine ⟨127, by omega, be 8 n ++ r, by rw [if_neg hshort]; rfl, ?_, by omega⟩
      unfold readLength
      rw [if_neg (by omega), if_pos rfl]
      refine Ask.parse_bind_ok.2 ⟨be 8 n, r, Ask.parse_take_ok.2 ⟨length_be 8 n, rfl⟩, ?_⟩
      rw [hvalue]
      exact Ask.parse_bind_ok.2 ⟨(), r, Ask.parse_ensure_ok.2 ⟨⟨by omega, hn⟩, rfl⟩, rfl⟩

/-- What a reader that returned a frame has read. -/
theorem readWebsocketFrame_ok {max : ℕ} {l r : Bytes} {f : WebSocketFrame}
    (h : (readWebsocketFrame max).parse .closed l = .ok (f, r)) :
    f.Allowed max ∧ ∃ mask, l = maskedFrame mask f ++ r := by
  unfold readWebsocketFrame at h
  obtain ⟨header, l₁, htake, h₁⟩ := Ask.parse_bind_ok.1 h
  obtain ⟨hlen, rfl⟩ := Ask.parse_take_ok.1 htake
  obtain ⟨b, c, rfl⟩ : ∃ b c, header = [b, c] := List.length_eq_two.1 hlen
  simp only [List.getD_cons_zero, List.getD_cons_succ] at h₁
  obtain ⟨u, l₂, hensure, h₂⟩ := Ask.parse_bind_ok.1 h₁
  obtain ⟨⟨hrsv, hmasked⟩, rfl⟩ := Ask.parse_ensure_ok.1 hensure
  obtain ⟨u, l₃, hensure', h₃⟩ := Ask.parse_bind_ok.1 h₂
  obtain ⟨hcontrol, rfl⟩ := Ask.parse_ensure_ok.1 hensure'
  obtain ⟨n, l₄, hlength, h₄⟩ := Ask.parse_bind_ok.1 h₃
  obtain ⟨u, l₅, hlimit, h₅⟩ := Ask.parse_bind_ok.1 h₄
  obtain ⟨hn, rfl⟩ := Ask.parse_ensure_ok.1 hlimit
  obtain ⟨mask, l₆, hmask, h₆⟩ := Ask.parse_bind_ok.1 h₅
  obtain ⟨hmaskLen, rfl⟩ := Ask.parse_take_ok.1 hmask
  obtain ⟨payload, l₇, hpayload, h₇⟩ := Ask.parse_bind_ok.1 h₆
  obtain ⟨hpayloadLen, rfl⟩ := Ask.parse_take_ok.1 hpayload
  obtain ⟨rfl, rfl⟩ := Ask.parse_pure_ok.1 h₇
  -- the two bytes in front, from the bits that were looked at
  obtain ⟨hfirst, hopcode⟩ := first_byte b hrsv
  obtain ⟨hsecond, hcode⟩ := second_byte c hmasked
  obtain ⟨hbytes, hlt, hsmall, hback⟩ := readLength_ok hcode hlength
  refine ⟨⟨hopcode, by simpa [hpayloadLen] using hn, by simpa [hpayloadLen] using hlt, ?_⟩, ⟨mask, hmaskLen⟩, ?_⟩
  · intro hop
    have hrules : ¬(decide (b.val &&& 0x80 ≠ 0) = false ∨ 125 < c.val &&& 0x7F) := fun h => hcontrol ⟨hop, h⟩
    have hshort : c.val &&& 0x7F ≤ 125 := not_lt.1 fun h => hrules (Or.inr h)
    refine ⟨by_contra fun h => hrules (Or.inl (Bool.eq_false_iff.2 h)), ?_⟩
    show (unmask mask payload).length ≤ 125
    rw [length_unmask, hpayloadLen, hsmall hshort]
    exact hshort
  · show b :: c :: l₁ = Fin.ofNat 256 ((if decide (b.val &&& 0x80 ≠ 0) then 0x80 else 0) + (b.val &&& 0x0F)) ::
      (lengthBytes 0x80 (unmask mask payload).length ++ mask ++ unmask mask (unmask mask payload)) ++ l₇
    rw [unmask_unmask, length_unmask, hpayloadLen, ← hfirst, List.cons_append, List.append_assoc, List.append_assoc, ← hbytes,
      ← hsecond]

theorem readWebsocketFrame_maskedFrame {max : ℕ} {f : WebSocketFrame} (hf : f.Allowed max) (mask : FixedBytes 4) (r : Bytes) :
    (readWebsocketFrame max).parse .closed (maskedFrame mask f ++ r) = .ok (f, r) := by
  obtain ⟨code, hcode, l, hbytes, hlength, hsmall⟩ :=
    exists_readLength 0x80 hf.length_lt (mask.bytes ++ (unmask mask.bytes f.payload ++ r))
  obtain ⟨hrsv, hfin, hopcode⟩ := first_byte_bits f.fin ⟨f.opcode, hf.opcode_lt⟩
  obtain ⟨hmasked, hcodeBits⟩ := second_byte_bits ⟨code, hcode⟩
  dsimp only at hrsv hfin hopcode hmasked hcodeBits
  have hcontrol : ¬(f.opcode ∈ controlOpcodes ∧ (f.fin = false ∨ 125 < code)) := by
    rintro ⟨hop, hbad⟩
    obtain ⟨hfinal, hshort⟩ := hf.control hop
    rcases hbad with hbad | hbad
    · rw [hfinal] at hbad
      cases hbad
    · rw [hsmall hshort] at hbad
      omega
  unfold maskedFrame readWebsocketFrame
  rw [List.cons_append, List.append_assoc, List.append_assoc, hbytes]
  refine Ask.parse_bind_ok.2 ⟨[_, _], l, Ask.parse_take_ok.2 ⟨rfl, rfl⟩, ?_⟩
  simp only [List.getD_cons_zero, List.getD_cons_succ]
  rw [hfin, hopcode, hcodeBits]
  refine Ask.parse_bind_ok.2 ⟨(), l, Ask.parse_ensure_ok.2 ⟨⟨hrsv, hmasked⟩, rfl⟩, ?_⟩
  refine Ask.parse_bind_ok.2 ⟨(), l, Ask.parse_ensure_ok.2 ⟨hcontrol, rfl⟩, ?_⟩
  refine Ask.parse_bind_ok.2 ⟨_, _, hlength, ?_⟩
  refine Ask.parse_bind_ok.2 ⟨(), _, Ask.parse_ensure_ok.2 ⟨hf.length_le, rfl⟩, ?_⟩
  refine Ask.parse_bind_ok.2 ⟨mask.bytes, _, Ask.parse_take_ok.2 ⟨mask.len, rfl⟩, ?_⟩
  refine Ask.parse_bind_ok.2 ⟨unmask mask.bytes f.payload, r, Ask.parse_take_ok.2 ⟨length_unmask _ _, rfl⟩, ?_⟩
  rw [unmask_unmask]
  rfl

/-- **A frame is read exactly from its bytes.** From whatever pieces a socket delivers, the server
reads a frame if and only if the socket's bytes begin with the masked form of a frame that is
allowed, with the shortest form of its length; and it leaves the bytes behind that frame. -/
theorem readWebsocketFrame_iff (max : ℕ) (socket : Socket) (f : WebSocketFrame) (r : Bytes) :
    (∃ rest, (readWebsocketFrame max).run .closed socket = .ok (f, rest) ∧ content rest = r) ↔
      f.Allowed max ∧ ∃ mask, content socket = maskedFrame mask f ++ r := by
  constructor
  · rintro ⟨rest, hrun, rfl⟩
    exact readWebsocketFrame_ok (Ask.run_ok hrun)
  · rintro ⟨hf, mask, hcontent⟩
    refine (Ask.run_parse .closed (readWebsocketFrame max) socket).2 f r ?_
    rw [hcontent]
    exact readWebsocketFrame_maskedFrame hf mask r

/-! ## What the server sends -/

/-- A frame that the server sends ends where it ends, and tells what it carries. -/
theorem writeWebsocketFrame_inj {opcode opcode' : ℕ} {payload payload' r r' : Bytes} (hop : opcode < 16) (hop' : opcode' < 16)
    (hlt : payload.length < 2 ^ 63) (hlt' : payload'.length < 2 ^ 63)
    (h : writeWebsocketFrame opcode payload ++ r = writeWebsocketFrame opcode' payload' ++ r') :
    opcode = opcode' ∧ payload = payload' ∧ r = r' := by
  have hfirst : ∀ a b : Fin 16, Fin.ofNat 256 (0x80 ||| a.val) = Fin.ofNat 256 (0x80 ||| b.val) → a = b := by
    decide +kernel
  unfold writeWebsocketFrame at h
  simp only [List.cons_append, List.append_assoc, List.cons.injEq] at h
  obtain ⟨hopcode, hrest⟩ := h
  obtain ⟨code, hcode, l, hbytes, hlength, -⟩ := exists_readLength 0 hlt (payload ++ r)
  obtain ⟨code', hcode', l', hbytes', hlength', -⟩ := exists_readLength 0 hlt' (payload' ++ r')
  rw [hbytes, hbytes', List.cons.injEq] at hrest
  obtain ⟨hsecond, rfl⟩ := hrest
  -- the same code is read, so the same length
  have hsame : code = code' := by
    have hval := congrArg Fin.val hsecond
    simp only [Fin.val_ofNat, Nat.zero_add] at hval
    omega
  subst hsame
  rw [hlength, Except.ok.injEq, Prod.mk.injEq] at hlength'
  obtain ⟨rfl, rfl⟩ := List.append_inj hlength'.2 hlength'.1
  exact ⟨congrArg Fin.val (hfirst ⟨opcode, hop⟩ ⟨opcode', hop'⟩ hopcode), rfl, rfl⟩

end WebSocket

end TensorPow
