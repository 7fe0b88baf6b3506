import HakunaMatata.Base.Binary64
import HakunaMatata.Base.Words
import Mathlib.Data.List.GetD

/-!
# Time-based one-time passwords, `totp.c`

`totp` counts the steps of thirty seconds with floating-point arithmetic, puts the count into memory
with its most significant byte first, and cuts six decimal digits out of the HMAC of these bytes.
The HMAC, which may fail, and the macro that swaps the bytes of a word belong to other libraries and
are parameters. `hotp` is what the code of a digest should be.
-/

namespace HakunaMatata.Totp

open Base

/-- What a call comes to: it returns a code, or it logs an error and the process exits. -/
inductive Outcome where
  | code (result : Nat)
  | exitFailure (log : String)
  deriving DecidableEq, Repr

/-- `(uint64_t)((double)ts / x)` with `x` thirty. -/
def timeStep (ts : Int) : Nat :=
  ⌊binary64 (binary64 ts / 30)⌋.toNat

/-- The bytes of `t` in memory, which is swapped on a little-endian machine with
`MUGGLE_ENDIAN_SWAP_64`. -/
def counterBytes (swap64 : ByteSwap 8) (endian : Endian) (t : Nat) : List UInt8 :=
  match endian with
  | .little => storeWord .little 8 (swap64.swap t)
  | .big => storeWord .big 8 t

/-- The dynamic truncation: four bytes of the digest, without the first bit. -/
def truncate (digest : List UInt8) : Except Fault Nat := do
  let last ← load digest (digest.length - 1)
  let offset := last.toNat &&& 0x0F
  let b0 ← load digest offset
  let b1 ← load digest (offset + 1)
  let b2 ← load digest (offset + 2)
  let b3 ← load digest (offset + 3)
  return (b0.toNat &&& 0x7F) <<< 24 ||| (b1.toNat &&& 0xFF) <<< 16 |||
    (b2.toNat &&& 0xFF) <<< 8 ||| (b3.toNat &&& 0xFF)

/-- `totp`, with `HMAC` of SHA-1: the digest, or the reason why there is none. -/
def totp (swap64 : ByteSwap 8) (endian : Endian)
    (hmac : List UInt8 → List UInt8 → Except String (List UInt8)) (ts : Int) (key : List UInt8) :
    Except Fault Outcome :=
  match hmac key (counterBytes swap64 endian (timeStep ts)) with
  | .error reason => .ok (.exitFailure ("failed hmac: " ++ reason))
  | .ok digest => do
    let result ← truncate digest
    return .code (result % 1000000)

/-- The code of a digest: the last six digits of the number in four of its bytes, without the first
bit. The last four bits of the digest tell where the bytes are. -/
def hotp (digest : List UInt8) : Nat :=
  let offset := (digest.getD (digest.length - 1) 0).toNat % 16
  loadWord .big ((digest.drop offset).take 4) % 2 ^ 31 % 1000000

/-- The time step is exact, although it is computed with doubles. -/
theorem timeStep_eq {ts : Nat} (hts : ts < 2 ^ 53) : timeStep ts = ts / 30 := by
  have hfloor := floor_binary64_div hts (show 0 < 30 by decide)
  have hcast : binary64 ((ts : Int) : ℚ) = ts := by
    rw [Int.cast_natCast, binary64_natCast hts]
  rw [timeStep, hcast]
  have hthirty : ((30 : ℕ) : ℚ) = 30 := by norm_num
  rw [hthirty] at hfloor
  rw [hfloor, Int.toNat_natCast]

/-- The counter is hashed with its most significant byte first on every machine. -/
theorem counterBytes_eq (swap64 : ByteSwap 8) (endian : Endian) {t : Nat} (ht : t < 2 ^ 64) :
    counterBytes swap64 endian t = storeWord .big 8 t := by
  cases endian with
  | little =>
    have hswap := swap64.reverses _ (length_storeWord .little 8 t)
    rw [loadWord_storeWord .little ht] at hswap
    have hlen : (storeWord .little 8 t).reverse.length = 8 := by
      rw [List.length_reverse, length_storeWord]
    rw [counterBytes, hswap]
    exact storeWord_loadWord .little hlen
  | big => rfl

theorem or_of_lt {a y i : Nat} (h : y < 2 ^ i) : a * 2 ^ i ||| y = a * 2 ^ i + y := by
  rw [← Nat.shiftLeft_eq, Nat.shiftLeft_add_eq_or_of_lt h]

theorem or_shifts {a b c d : Nat} (hb : b < 256) (hc : c < 256) (hd : d < 256) :
    a <<< 24 ||| b <<< 16 ||| c <<< 8 ||| d = a * 2 ^ 24 + b * 2 ^ 16 + c * 2 ^ 8 + d := by
  rw [Nat.shiftLeft_eq, Nat.shiftLeft_eq, Nat.shiftLeft_eq, or_of_lt (by omega),
    show a * 2 ^ 24 + b * 2 ^ 16 = (a * 2 ^ 8 + b) * 2 ^ 16 by omega, or_of_lt (by omega),
    show (a * 2 ^ 8 + b) * 2 ^ 16 + c * 2 ^ 8 = ((a * 2 ^ 8 + b) * 2 ^ 8 + c) * 2 ^ 8 by omega,
    or_of_lt (by omega)]

/-- The truncation reads inside a digest of twenty bytes, wherever the last bits point. -/
theorem truncate_eq {digest : List UInt8} (hlen : digest.length = 20) :
    truncate digest = .ok (loadWord .big ((digest.drop
      ((digest.getD (digest.length - 1) 0).toNat % 16)).take 4) % 2 ^ 31) := by
  have hlast : digest.length - 1 < digest.length := by omega
  have hnibble : digest[digest.length - 1].toNat &&& 0x0F =
      digest[digest.length - 1].toNat % 16 := Nat.and_two_pow_sub_one_eq_mod _ 4
  have hoffset : digest[digest.length - 1].toNat % 16 < 16 := Nat.mod_lt _ (by decide)
  rw [List.getD_eq_getElem _ _ hlast, truncate, load_of_lt hlast, ok_bind, hnibble]
  generalize digest[digest.length - 1].toNat % 16 = offset at hoffset
  have h0 : offset < digest.length := by omega
  have h1 : offset + 1 < digest.length := by omega
  have h2 : offset + 2 < digest.length := by omega
  have h3 : offset + 3 < digest.length := by omega
  have hbytes : (digest.drop offset).take 4 =
      [digest[offset], digest[offset + 1], digest[offset + 2], digest[offset + 3]] := by
    rw [List.drop_eq_getElem_cons h0, List.drop_eq_getElem_cons h1, List.drop_eq_getElem_cons h2,
      List.drop_eq_getElem_cons h3]
    rfl
  dsimp only
  rw [load_of_lt h0, ok_bind, load_of_lt h1, ok_bind, load_of_lt h2, ok_bind, load_of_lt h3,
    ok_bind, hbytes]
  have hb0 := (digest[offset]).toNat_lt
  have hb1 := (digest[offset + 1]).toNat_lt
  have hb2 := (digest[offset + 2]).toNat_lt
  have hb3 := (digest[offset + 3]).toNat_lt
  have hand : ∀ n : Nat, n &&& 0xFF = n % 256 := fun n => Nat.and_two_pow_sub_one_eq_mod n 8
  have hand' : ∀ n : Nat, n &&& 0x7F = n % 128 := fun n => Nat.and_two_pow_sub_one_eq_mod n 7
  rw [hand', hand, hand, hand, or_shifts (by omega) (by omega) (by omega)]
  show Except.ok _ = Except.ok (ofLowBytes _ % _)
  simp only [List.reverse_cons, List.reverse_nil, List.nil_append, List.cons_append, ofLowBytes]
  congr 1
  omega

/-- The code of a time, on every machine and for every time up to `2 ^ 53` seconds: the HMAC is that
of the time divided by thirty, although the division is done with doubles. If there is a digest, of
the twenty bytes of SHA-1, nothing is read outside of it and its code is returned, which has at most
six digits. Otherwise the reason is logged and the process exits. So the outcome is the same for the
thirty seconds of a step. -/
theorem totp_eq_hotp (swap64 : ByteSwap 8) (endian : Endian)
    (hmac : List UInt8 → List UInt8 → Except String (List UInt8)) {ts : Nat} (hts : ts < 2 ^ 53)
    (key : List UInt8) :
    (∀ digest, hmac key (storeWord .big 8 (ts / 30)) = .ok digest → digest.length = 20 →
      totp swap64 endian hmac ts key = .ok (.code (hotp digest)) ∧ hotp digest < 10 ^ 6) ∧
    ∀ reason, hmac key (storeWord .big 8 (ts / 30)) = .error reason →
      totp swap64 endian hmac ts key = .ok (.exitFailure ("failed hmac: " ++ reason)) := by
  have hcounter : counterBytes swap64 endian (timeStep ts) = storeWord .big 8 (ts / 30) := by
    rw [timeStep_eq hts, counterBytes_eq swap64 endian (by omega)]
  refine ⟨fun digest hdigest hlen => ⟨?_, Nat.mod_lt _ (by decide)⟩, fun reason hreason => ?_⟩
  · simp only [totp, hcounter, hdigest, truncate_eq hlen, ok_bind]
    rfl
  · simp only [totp, hcounter, hreason]

/-- A key of twenty bytes, the digits of ASCII. -/
def sampleKey : List UInt8 :=
  [0x31, 0x32, 0x33, 0x34, 0x35, 0x36, 0x37, 0x38, 0x39, 0x30,
    0x31, 0x32, 0x33, 0x34, 0x35, 0x36, 0x37, 0x38, 0x39, 0x30]

/-- The HMAC of the counter one with this key. -/
def sampleHmac (key message : List UInt8) : Except String (List UInt8) :=
  if key = sampleKey ∧ message = [0, 0, 0, 0, 0, 0, 0, 1] then
    .ok [0x75, 0xa4, 0x8a, 0x19, 0xd4, 0xcb, 0xe1, 0x00, 0x64, 0x4e,
      0x8a, 0xc1, 0x39, 0x7e, 0xea, 0x74, 0x7a, 0x2d, 0x33, 0xab]
  else .error "unknown"

/-- The code of the last second of this step. -/
theorem totp_eq_hotp_sample :
    totp (byteSwap 8) .little sampleHmac 59 sampleKey = .ok (.code 287082) :=
  ((totp_eq_hotp (byteSwap 8) .little sampleHmac (show 59 < 2 ^ 53 by decide) sampleKey).1
    _ rfl rfl).1

end HakunaMatata.Totp
