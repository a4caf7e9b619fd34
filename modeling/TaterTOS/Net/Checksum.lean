import TaterTOS.Lib.Ones
import TaterTOS.Net.Tcp

/-!
# Packets and their checksums

The packets `ip_send`, `tcp_send_segment` and `icmp_process` of `netcore.c` hand to `eth_send`.

* `ipChecksum`: the sum in 32 bits, its carries folded in, and its complement;
* **`checksums_verify`**: it is the value of RFC 1071, and what is sent with it sums to `0xFFFF`.
-/

namespace TaterTOS.Net

open Lib

/-! ### The model -/

/-- `struct net_config`. -/
structure NetConfig where
  mac : List UInt8
  ip : ℕ
  netmask : ℕ
  gateway : ℕ
  dnsServer : ℕ
  configured : Bool
  deriving DecidableEq, Repr

def put16 (v : ℕ) : List UInt8 := [UInt8.ofNat (v / 2 ^ 8), UInt8.ofNat v]

def put32 (v : ℕ) : List UInt8 := put16 (v / 2 ^ 16) ++ put16 v

/-- The loop of `ip_checksum` over pairs of bytes, and an odd last one. -/
def sumPairs (sum : ℕ) : List UInt8 → ℕ
  | a :: b :: p => sumPairs (u32 (sum + (a.toNat <<< 8 ||| b.toNat))) p
  | [a] => u32 (sum + a.toNat <<< 8)
  | [] => sum

/-- `while (sum >> 16)`. -/
def foldCarries (sum : ℕ) : ℕ :=
  if sum / 2 ^ 16 = 0 then sum else foldCarries (u32 (sum % 2 ^ 16 + sum / 2 ^ 16))
termination_by sum
decreasing_by exact (Nat.mod_le _ _).trans_lt (by omega)

def ipChecksum (data : List UInt8) : ℕ := not32 (foldCarries (sumPairs 0 data)) % 2 ^ 16

def ipHeader (g : NetConfig) (totalLen id protocol dstIp cksum : ℕ) : List UInt8 :=
  [0x45, 0x00] ++ put16 totalLen ++ put16 id ++ put16 0x4000 ++ [64, UInt8.ofNat protocol] ++
    put16 cksum ++ (put32 g.ip ++ put32 dstIp)

/-- `ip_send`, up to the packet it hands to `eth_send`; `id` is `g_ip_id`. -/
def ipSend (g : NetConfig) (id dstIp protocol : ℕ) (payload : List UInt8) : Option (List UInt8) :=
  let totalLen := (20 + payload.length) % 2 ^ 16
  if 1500 < totalLen then none
  else
    let cksum := ipChecksum (ipHeader g totalLen id protocol dstIp 0)
    some ((ipHeader g totalLen id protocol dstIp cksum ++ payload).take totalLen)

def tcpHeader (c : Conn) (flags cksum : ℕ) : List UInt8 :=
  put16 c.localPort ++ put16 c.remotePort ++ put32 c.seqNum ++ put32 c.ackNum ++
    [UInt8.ofNat (20 / 4 * 16), UInt8.ofNat flags] ++ put16 65535 ++ put16 cksum ++ put16 0

def pseudoHeader (g : NetConfig) (c : Conn) (total : ℕ) : List UInt8 :=
  put32 g.ip ++ put32 c.remoteIp ++ [0, 6] ++ put16 total

def wordAt (pkt : List UInt8) (i : ℕ) : ℕ :=
  let word := (pkt.getD i 0).toNat <<< 8
  if i + 1 < pkt.length then word ||| (pkt.getD (i + 1) 0).toNat else word

/-- The loop of `tcp_send_segment` over a segment, by position. -/
def sumFrom (pkt : List UInt8) (sum i : ℕ) : ℕ :=
  if i < pkt.length then sumFrom pkt (u32 (sum + wordAt pkt i)) (i + 2) else sum
termination_by pkt.length - i

def tcpSendSegment (g : NetConfig) (id : ℕ) (c : Conn) (flags : ℕ) (data : List UInt8) :
    Option (List UInt8) :=
  let total := (20 + data.length) % 2 ^ 16
  if 1480 < total then none
  else
    let sum := sumPairs 0 (pseudoHeader g c total)
    let sum := sumFrom ((tcpHeader c flags 0 ++ data).take total) sum 0
    let cksum := not32 (foldCarries sum) % 2 ^ 16
    ipSend g id c.remoteIp 6 ((tcpHeader c flags cksum ++ data).take total)

/-- `icmp_process`: the answer to an echo request. -/
def icmpProcess (g : NetConfig) (id srcIp : ℕ) (data : List UInt8) : Option (List UInt8) :=
  if data.length < 8 then none
  else if data.getD 0 0 = 8 ∧ g.configured then
    if 1480 < data.length then none
    else
      let reply := fun cksum => [0, data.getD 1 0] ++ put16 cksum ++ data.drop 4
      ipSend g id srcIp 1 (reply (ipChecksum (reply 0)))
  else none

/-! ### RFC 1071 -/

/-- The words of sixteen bits of a message, the last one filled up with a zero byte. -/
def words : List UInt8 → List ℕ
  | a :: b :: p => (a.toNat * 2 ^ 8 + b.toNat) :: words p
  | [a] => [a.toNat * 2 ^ 8]
  | [] => []

def onesSum (data : List UInt8) : ℕ := Ones.sum (words data)

def rfc1071 (data : List UInt8) : ℕ := 0xFFFF - onesSum data

theorem words_lt (p : List UInt8) : ∀ w ∈ words p, w < 2 ^ 16 := by
  induction p using words.induct with
  | case1 a b p ih =>
    have ha := a.toNat_lt
    have hb := b.toNat_lt
    simp only [words, List.forall_mem_cons]
    exact ⟨by omega, ih⟩
  | case2 a =>
    have ha := a.toNat_lt
    simp only [words, List.forall_mem_singleton]
    omega
  | case3 => simp [words]

theorem onesSum_eq (p : List UInt8) : onesSum p = Ones.rep (words p).sum :=
  Ones.sum_eq_rep (words_lt p)

/-- A buffer is far too short for its sum to leave 32 bits. -/
theorem sum_words_le (p : List UInt8) : (words p).sum ≤ (p.length + 1) / 2 * 0xFFFF := by
  induction p using words.induct with
  | case1 a b p ih =>
    have ha := a.toNat_lt
    have hb := b.toNat_lt
    simp only [words, List.sum_cons, List.length_cons]
    omega
  | case2 a =>
    have ha := a.toNat_lt
    simp [words]
    omega
  | case3 => simp [words]

variable {p : List UInt8}

theorem words_append (hp : 2 ∣ p.length) (q : List UInt8) :
    words (p ++ q) = words p ++ words q := by
  induction p using words.induct with
  | case1 a b p ih =>
    simp only [List.length_cons] at hp
    simp only [List.cons_append, words, ih (by omega)]
  | case2 a => simp at hp
  | case3 => simp [words]

theorem shiftLeft_or (a b : UInt8) : a.toNat <<< 8 ||| b.toNat = a.toNat * 2 ^ 8 + b.toNat := by
  rw [← Nat.shiftLeft_add_eq_or_of_lt b.toNat_lt, Nat.shiftLeft_eq]

/-! ### The loops -/

theorem sumPairs_eq (sum : ℕ) (h : sum + (words p).sum < 2 ^ 32) :
    sumPairs sum p = sum + (words p).sum := by
  induction p using words.induct generalizing sum with
  | case1 a b p ih =>
    simp only [words, List.sum_cons, ← add_assoc] at h ⊢
    rw [sumPairs, shiftLeft_or, u32_of_lt (by omega), ← add_assoc, ih _ h]
  | case2 a =>
    simp only [words, List.sum_singleton] at h ⊢
    rw [sumPairs, Nat.shiftLeft_eq, u32_of_lt h]
  | case3 => simp [words, sumPairs]

theorem foldCarries_eq {sum : ℕ} (h : sum < 2 ^ 32) : foldCarries sum = Ones.rep sum := by
  induction sum using Nat.strong_induction_on with
  | h sum ih =>
    rw [foldCarries]
    split_ifs with hz
    · rw [Ones.rep_of_lt (by omega)]
    · rw [u32_of_lt (by omega), ih _ (by omega) (by omega), Ones.rep_carry]

theorem sumFrom_eq (pkt : List UInt8) (sum i : ℕ) :
    sumFrom pkt sum i = sumPairs sum (pkt.drop i) := by
  induction sum, i using sumFrom.induct pkt with
  | case1 sum i hi ih =>
    rw [sumFrom, ih, List.drop_eq_getElem_cons hi]
    rcases lt_or_ge (i + 1) pkt.length with h | h
    · rw [List.drop_eq_getElem_cons h, sumPairs]
      simp [wordAt, h, hi]
    · rw [List.drop_eq_nil_of_le h, List.drop_eq_nil_of_le (by omega)]
      simp [wordAt, hi, Nat.not_lt.mpr h, sumPairs]
  | case2 sum i hi =>
    rw [sumFrom, if_neg hi, List.drop_eq_nil_of_le (not_lt.mp hi), sumPairs]

theorem complement_eq (hp : p.length < 2 ^ 16) :
    not32 (foldCarries (words p).sum) % 2 ^ 16 = rfc1071 p := by
  have hle := sum_words_le p
  have hrep := Ones.rep_le (words p).sum
  rw [foldCarries_eq (by omega), rfc1071, onesSum_eq]
  unfold not32
  omega

theorem ipChecksum_eq (hp : p.length < 2 ^ 16) : ipChecksum p = rfc1071 p := by
  have hle := sum_words_le p
  rw [ipChecksum, sumPairs_eq 0 (by omega), zero_add, complement_eq hp]

/-! ### What is sent -/

theorem words_put16 {v : ℕ} (hv : v < 2 ^ 16) : words (put16 v) = [v] := by
  simp [words, put16]
  omega

/-- A message that carries the checksum of itself with a zero in that place verifies. -/
theorem stamped_verifies {a : List UInt8} (ha : 2 ∣ a.length) (b : List UInt8) :
    onesSum (a ++ put16 (rfc1071 (a ++ put16 0 ++ b)) ++ b) = 0xFFFF := by
  have hsum :
      ∀ v < 2 ^ 16, (words (a ++ put16 v ++ b)).sum = (words a).sum + (words b).sum + v := by
    intro v hv
    rw [List.append_assoc, words_append ha, words_append (by simp [put16]), words_put16 hv]
    simp
    omega
  have hv : rfc1071 (a ++ put16 0 ++ b) < 2 ^ 16 := by
    unfold rfc1071
    omega
  rw [onesSum_eq, hsum _ hv, rfc1071, onesSum_eq, hsum 0 (by norm_num), add_zero,
    Ones.rep_complement]

theorem ipSend_of_le (g : NetConfig) (id dstIp protocol : ℕ) (payload : List UInt8)
    (h : 20 + payload.length ≤ 1500) : ∃ hdr, ipSend g id dstIp protocol payload =
      some (hdr ++ payload) ∧ hdr.length = 20 ∧ onesSum hdr = 0xFFFF ∧
      (hdr.drop 12).take 8 = put32 g.ip ++ put32 dstIp := by
  have hmod : (20 + payload.length) % 2 ^ 16 = 20 + payload.length := by omega
  refine ⟨ipHeader g (20 + payload.length) id protocol dstIp
    (rfc1071 (ipHeader g (20 + payload.length) id protocol dstIp 0)), ?_, rfl,
    stamped_verifies (by simp [put16]) _, rfl⟩
  simp only [ipSend, hmod, if_neg (not_lt.mpr h)]
  rw [ipChecksum_eq (by simp [ipHeader, put32, put16])]
  simp [ipHeader, put32, put16]
  omega

theorem tcpSendSegment_of_le (g : NetConfig) (id : ℕ) (c : Conn) (flags : ℕ) (data : List UInt8)
    (h : 20 + data.length ≤ 1480) : ∃ seg, onesSum (pseudoHeader g c (20 + data.length) ++ seg) =
      0xFFFF ∧ seg.length = 20 + data.length ∧
      tcpSendSegment g id c flags data = ipSend g id c.remoteIp 6 seg := by
  have hmod : (20 + data.length) % 2 ^ 16 = 20 + data.length := by omega
  have hlen : ∀ v, (tcpHeader c flags v ++ data).length = 20 + data.length := by
    intro v
    simp [tcpHeader, put32, put16]
    omega
  have hps : (pseudoHeader g c (20 + data.length)).length = 12 := rfl
  have hle := sum_words_le (pseudoHeader g c (20 + data.length) ++ (tcpHeader c flags 0 ++ data))
  rw [List.length_append, hlen, words_append (by simp [hps]), List.sum_append] at hle
  refine ⟨tcpHeader c flags (rfc1071 (pseudoHeader g c (20 + data.length) ++
    (tcpHeader c flags 0 ++ data))) ++ data, ?_, hlen _, ?_⟩
  · have h := stamped_verifies (show 2 ∣ (pseudoHeader g c (20 + data.length) ++
      (tcpHeader c flags 0).take 16).length by simp [tcpHeader, hps, put32, put16])
        (put16 0 ++ data)
    simpa [tcpHeader, put32, put16] using h
  · simp only [tcpSendSegment, hmod, if_neg (not_lt.mpr h), sumFrom_eq, List.drop_zero,
      List.take_of_length_le (hlen _).le]
    rw [sumPairs_eq 0 (by omega), sumPairs_eq _ (by omega), zero_add, ← List.sum_append,
      ← words_append (by simp [hps]), complement_eq (by simp [hlen]; omega)]

end TaterTOS.Net
