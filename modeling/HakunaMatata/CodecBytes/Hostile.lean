import Mathlib.Logic.Relation
import HakunaMatata.CodecBytes.Parsing

/-!
# The parse loop on bytes that anyone may send

The total length of a message is a 32-bit sum of the header size and the length in the header. A
length of `2 ^ 32 - 16` or more makes the sum wrap around to at most fifteen: the loop then
delivers fewer bytes than a header, and none at all for `2 ^ 32 - 16` exactly, where it never
ends. `hostile_input_sound_iff` says that this is the only way in which the loop goes wrong.
-/

namespace HakunaMatata.CodecBytes

open Base

section Headers

variable (cfg : Config)

/-- The length of the first message, over the natural numbers. -/
def messageLen (xs : List UInt8) : Nat :=
  headerSize + (frontHeader cfg xs).payloadLen

/-- A whole message within the limit stands at the front. -/
def Whole (xs : List UInt8) : Prop :=
  Accepted cfg xs ∧ messageLen cfg xs ≤ cfg.msgLenLimit.toNat ∧ messageLen cfg xs ≤ xs.length

/-- The length in the header at the front makes the 32-bit sum wrap around, below the limit. -/
def Wraps (xs : List UInt8) : Prop :=
  Accepted cfg xs ∧ 2 ^ 32 ≤ messageLen cfg xs ∧
    totalBytes (frontHeader cfg xs) ≤ cfg.msgLenLimit.toNat

/-- The bytes `ys` are what follows some whole messages at the front of `xs`. -/
inductive Follows : List UInt8 → List UInt8 → Prop where
  | refl (xs : List UInt8) : Follows xs xs
  | next {xs ys : List UInt8} : Whole cfg xs → Follows (xs.drop (messageLen cfg xs)) ys →
      Follows xs ys

instance (xs : List UInt8) : Decidable (Accepted cfg xs) :=
  inferInstanceAs (Decidable (_ ∧ _))

instance (xs : List UInt8) : Decidable (Whole cfg xs) :=
  inferInstanceAs (Decidable (_ ∧ _ ∧ _))

instance (xs : List UInt8) : Decidable (Wraps cfg xs) :=
  inferInstanceAs (Decidable (_ ∧ _ ∧ _))

variable {cfg} {xs ys : List UInt8}

theorem payloadLen_lt (cfg : Config) (xs : List UInt8) :
    (frontHeader cfg xs).payloadLen < 2 ^ 32 := by
  have hlt := loadWord_lt cfg.host.endian (((xs.take headerSize).drop 12).take 4)
  have hlen : (((xs.take headerSize).drop 12).take 4).length ≤ 4 := List.length_take_le 4 _
  exact Nat.lt_of_lt_of_le hlt (Nat.pow_le_pow_right (by decide) hlen)

/-- The 32-bit sum is the length of the message when it does not wrap around. -/
theorem totalBytes_of_lt (h : messageLen cfg xs < 2 ^ 32) :
    totalBytes (frontHeader cfg xs) = messageLen cfg xs :=
  u32_of_lt h

/-- A sum that wraps around is shorter than a header. -/
theorem totalBytes_of_wraps (h : 2 ^ 32 ≤ messageLen cfg xs) :
    totalBytes (frontHeader cfg xs) < headerSize := by
  have hlt := payloadLen_lt cfg xs
  unfold messageLen headerSize at h
  unfold totalBytes u32 headerSize
  omega

theorem verdict_of_whole (h : Whole cfg xs) : verdict cfg xs = .take (messageLen cfg xs) := by
  obtain ⟨haccepted, hlimit, hle⟩ := h
  have htotal : totalBytes (frontHeader cfg xs) = messageLen cfg xs :=
    totalBytes_of_lt (Nat.lt_of_le_of_lt hlimit cfg.msgLenLimit.toNat_lt)
  exact verdict_eq_take_iff.mpr ⟨haccepted, htotal.symm, fun _ => hlimit, hle⟩

/-- A sum that wraps around is taken at its wrapped value. -/
theorem verdict_of_wraps (h : Wraps cfg xs) :
    verdict cfg xs = .take (totalBytes (frontHeader cfg xs)) := by
  obtain ⟨haccepted, hwrap, hlimit⟩ := h
  have hle : totalBytes (frontHeader cfg xs) ≤ xs.length :=
    Nat.le_trans (Nat.le_of_lt (totalBytes_of_wraps hwrap)) haccepted.1
  exact verdict_eq_take_iff.mpr ⟨haccepted, rfl, fun _ => hlimit, hle⟩

/-- What is taken under a limit is a whole message, or its length wraps around. -/
theorem whole_or_wraps (hlimit : 0 < cfg.msgLenLimit.toNat) {count : Nat}
    (h : verdict cfg xs = .take count) :
    Whole cfg xs ∧ count = messageLen cfg xs ∨ Wraps cfg xs := by
  obtain ⟨haccepted, rfl, hunder, hthere⟩ := verdict_eq_take_iff.mp h
  by_cases hwrap : 2 ^ 32 ≤ messageLen cfg xs
  · exact Or.inr ⟨haccepted, hwrap, hunder hlimit⟩
  · have htotal := totalBytes_of_lt (Nat.lt_of_not_le hwrap)
    rw [htotal] at hunder hthere
    exact Or.inl ⟨⟨haccepted, hunder hlimit, hthere⟩, htotal⟩

/-- Following whole messages goes on behind the last of them. -/
theorem Follows.snoc (h : Follows cfg xs ys) (hwhole : Whole cfg ys) :
    Follows cfg xs (ys.drop (messageLen cfg ys)) := by
  induction h with
  | refl xs => exact .next hwhole (.refl _)
  | next hfirst _ ih => exact .next hfirst (ih hwhole)

end Headers

section Loop

variable {β : Type*} (cfg : Config) (buffer : BytesBuffer β) (content : β → List UInt8)
  (deliver : List (List UInt8) → List UInt8 → Bool)

/-- The parse loop comes from the first state to the second by iterations that do not exit. -/
def Iterates : Link β → Link β → Prop :=
  Relation.ReflTransGen fun link link' => parseStep cfg buffer deliver link = .again link'

/-- The parse loop ends; every message that it delivers has the length that its header says, at
least a header and at most the limit; and every iteration that does not exit removes at least a
header from the buffer. -/
structure SoundLoop (link : Link β) : Prop where
  terminates : ∃ fuel result, parseLoop cfg buffer deliver fuel link = .ok result
  delivers : ∀ before after, Iterates cfg buffer deliver link before →
    parseStep cfg buffer deliver before = .again after →
      ∃ msg, after.received = before.received ++ [msg] ∧
        msg.length = messageLen cfg (content before.buf) ∧ headerSize ≤ msg.length ∧
        msg.length ≤ cfg.msgLenLimit.toNat
  progresses : ∀ before after, Iterates cfg buffer deliver link before →
    parseStep cfg buffer deliver before = .again after →
      (content after.buf).length + headerSize ≤ (content before.buf).length

variable {cfg buffer content deliver}

/-- An iteration that does not exit delivers what the verdict takes. -/
theorem verdict_of_again (hfifo : IdealFifo buffer content)
    (hdeliver : ∀ received msg, deliver received msg = true) {before after : Link β}
    (hagain : parseStep cfg buffer deliver before = .again after) :
    ∃ count, verdict cfg (content before.buf) = .take count ∧
      content after.buf = (content before.buf).drop count ∧
      after.received = before.received ++ [(content before.buf).take count] := by
  have hspec := parseStep_spec cfg hfifo hdeliver before
  cases hverdict : verdict cfg (content before.buf) with
  | wait =>
    rw [hverdict, hagain] at hspec
    cases hspec
  | reject =>
    rw [hverdict, hagain] at hspec
    cases hspec
  | take count =>
    rw [hverdict] at hspec
    obtain ⟨buf, hbuf, hstep⟩ := hspec
    rw [hagain] at hstep
    cases hstep
    exact ⟨count, rfl, hbuf, rfl⟩

theorem again_of_verdict (hfifo : IdealFifo buffer content)
    (hdeliver : ∀ received msg, deliver received msg = true) {link : Link β} {count : Nat}
    (hverdict : verdict cfg (content link.buf) = .take count) :
    ∃ after, parseStep cfg buffer deliver link = .again after ∧
      content after.buf = (content link.buf).drop count := by
  have hspec := parseStep_spec cfg hfifo hdeliver link
  rw [hverdict] at hspec
  obtain ⟨buf, hbuf, hstep⟩ := hspec
  exact ⟨_, hstep, hbuf⟩

/-- The parse loop passes the whole messages at the front of the buffer. -/
theorem iterates_of_follows (hfifo : IdealFifo buffer content)
    (hdeliver : ∀ received msg, deliver received msg = true) {xs ys : List UInt8}
    (h : Follows cfg xs ys) (link : Link β) (hbuf : content link.buf = xs) :
    ∃ link', Iterates cfg buffer deliver link link' ∧ content link'.buf = ys := by
  induction h generalizing link with
  | refl xs => exact ⟨link, .refl, hbuf⟩
  | next hwhole _ ih =>
    subst hbuf
    obtain ⟨after, hagain, hafter⟩ := again_of_verdict hfifo hdeliver (verdict_of_whole hwhole)
    obtain ⟨link', hiterates, hlink'⟩ := ih after hafter
    exact ⟨link', .head hagain hiterates, hlink'⟩

/-- As long as no length wraps around, the parse loop is always behind whole messages. -/
theorem follows_of_iterates (hfifo : IdealFifo buffer content)
    (hdeliver : ∀ received msg, deliver received msg = true)
    (hlimit : 0 < cfg.msgLenLimit.toNat) {link : Link β}
    (hnone : ∀ ys, Follows cfg (content link.buf) ys → ¬ Wraps cfg ys) {link' : Link β}
    (h : Iterates cfg buffer deliver link link') :
    Follows cfg (content link.buf) (content link'.buf) := by
  induction h with
  | refl => exact .refl _
  | tail _ hagain ih =>
    obtain ⟨count, hverdict, hbuf, _⟩ := verdict_of_again hfifo hdeliver hagain
    rcases whole_or_wraps hlimit hverdict with ⟨hwhole, rfl⟩ | hwraps
    · rw [hbuf]
      exact ih.snoc hwhole
    · exact absurd hwraps (hnone _ ih)

/-- As long as no length wraps around, the parse loop ends. -/
theorem parseLoop_terminates (hfifo : IdealFifo buffer content)
    (hdeliver : ∀ received msg, deliver received msg = true)
    (hlimit : 0 < cfg.msgLenLimit.toNat) (size : Nat) (link : Link β)
    (hsize : (content link.buf).length < size)
    (hnone : ∀ ys, Follows cfg (content link.buf) ys → ¬ Wraps cfg ys) :
    ∃ fuel result, parseLoop cfg buffer deliver fuel link = .ok result := by
  induction size generalizing link with
  | zero => omega
  | succ size ih =>
    cases hstep : parseStep cfg buffer deliver link with
    | exit result link' => exact ⟨1, (result, link'), by simp [parseLoop, hstep]⟩
    | again link' =>
      obtain ⟨count, hverdict, hbuf, _⟩ := verdict_of_again hfifo hdeliver hstep
      rcases whole_or_wraps hlimit hverdict with ⟨hwhole, rfl⟩ | hwraps
      · have hshorter : (content link'.buf).length < size := by
          have hle := hwhole.2.2
          rw [hbuf, List.length_drop]
          unfold messageLen headerSize at hle ⊢
          omega
        obtain ⟨fuel, result, hloop⟩ := ih link' hshorter
          (fun ys hys => hnone ys (.next hwhole (hbuf ▸ hys)))
        exact ⟨fuel + 1, result, by simp [parseLoop, hstep, hloop]⟩
      · exact absurd hwraps (hnone _ (.refl _))

/-- As long as no length wraps around, every iteration that does not exit delivers a whole
message. -/
theorem whole_of_iterates (hfifo : IdealFifo buffer content)
    (hdeliver : ∀ received msg, deliver received msg = true)
    (hlimit : 0 < cfg.msgLenLimit.toNat) {link before after : Link β}
    (hnone : ∀ ys, Follows cfg (content link.buf) ys → ¬ Wraps cfg ys)
    (hiterates : Iterates cfg buffer deliver link before)
    (hagain : parseStep cfg buffer deliver before = .again after) :
    Whole cfg (content before.buf) ∧
      content after.buf = (content before.buf).drop (messageLen cfg (content before.buf)) ∧
      after.received = before.received ++
        [(content before.buf).take (messageLen cfg (content before.buf))] := by
  obtain ⟨count, hverdict, hbuf, hreceived⟩ := verdict_of_again hfifo hdeliver hagain
  have hfollows := follows_of_iterates hfifo hdeliver hlimit hnone hiterates
  rcases whole_or_wraps hlimit hverdict with ⟨hwhole, rfl⟩ | hwraps
  · exact ⟨hwhole, hbuf, hreceived⟩
  · exact absurd hwraps (hnone _ hfollows)

/-- The parse loop is sound on the buffered bytes exactly if no header behind whole messages has a
length that makes the 32-bit sum wrap around. -/
theorem hostile_input_sound_iff (hfifo : IdealFifo buffer content)
    (hdeliver : ∀ received msg, deliver received msg = true)
    (hlimit : 0 < cfg.msgLenLimit.toNat) (link : Link β) :
    SoundLoop cfg buffer content deliver link ↔
      ∀ ys, Follows cfg (content link.buf) ys → ¬ Wraps cfg ys := by
  constructor
  · intro hsound ys hfollows hwraps
    obtain ⟨before, hiterates, rfl⟩ := iterates_of_follows hfifo hdeliver hfollows link rfl
    obtain ⟨after, hagain, hafter⟩ := again_of_verdict hfifo hdeliver (verdict_of_wraps hwraps)
    have hremoved := hsound.progresses before after hiterates hagain
    have hshort := totalBytes_of_wraps hwraps.2.1
    rw [hafter, List.length_drop] at hremoved
    omega
  · intro hnone
    refine ⟨parseLoop_terminates hfifo hdeliver hlimit _ link (Nat.lt_succ_self _) hnone, ?_, ?_⟩
    · intro before after hiterates hagain
      obtain ⟨⟨_, hunder, hthere⟩, _, hreceived⟩ :=
        whole_of_iterates hfifo hdeliver hlimit hnone hiterates hagain
      have hlen : ((content before.buf).take (messageLen cfg (content before.buf))).length =
          messageLen cfg (content before.buf) := List.length_take_of_le hthere
      refine ⟨_, hreceived, hlen, ?_, ?_⟩
      · rw [hlen]
        exact Nat.le_add_right _ _
      · rw [hlen]
        exact hunder
    · intro before after hiterates hagain
      obtain ⟨⟨_, _, hthere⟩, hbuf, _⟩ :=
        whole_of_iterates hfifo hdeliver hlimit hnone hiterates hagain
      rw [hbuf, List.length_drop]
      unfold messageLen at hthere ⊢
      omega

/-- A message without payload and an incomplete one: the loop is sound. -/
theorem hostile_input_sound_iff_short :
    SoundLoop defaultConfig (listBuffer 64) id (fun _ _ => true)
      ⟨[0x44, 0x45, 0x4D, 0x4F, 1, 1, 0, 0, 7, 0, 0, 0, 0, 0, 0, 0, 0x44], []⟩ := by
  refine (hostile_input_sound_iff (listBuffer_ideal 64) (fun _ _ => rfl) (by decide) _).mpr ?_
  intro ys hfollows
  cases hfollows with
  | refl => decide
  | next _ hrest =>
    cases hrest with
    | refl => decide
    | next hwhole _ => exact absurd hwhole (by decide)

/-- A header whose length is `2 ^ 32 - 16`. -/
def hostileHeader : List UInt8 :=
  [0x44, 0x45, 0x4D, 0x4F, 1, 1, 0, 0, 7, 0, 0, 0, 0xF0, 0xFF, 0xFF, 0xFF]

/-- The loop delivers an empty message and stays where it is. -/
theorem parseStep_hostileHeader (received : List (List UInt8)) :
    parseStep defaultConfig (listBuffer 64) (fun _ _ => true) ⟨hostileHeader, received⟩ =
      .again ⟨hostileHeader, received ++ [[]]⟩ := by
  have hverdict : verdict defaultConfig hostileHeader = .take 0 := by decide
  have hspec := @parseStep_spec _ defaultConfig _ _ (fun _ _ => true) (listBuffer_ideal 64)
    (fun _ _ => rfl) ⟨hostileHeader, received⟩
  simp only [id, hverdict] at hspec
  obtain ⟨buf, rfl, hstep⟩ := hspec
  exact hstep

theorem parseLoop_hostileHeader (fuel : Nat) (received : List (List UInt8)) :
    parseLoop defaultConfig (listBuffer 64) (fun _ _ => true) fuel ⟨hostileHeader, received⟩ =
      .error .diverged := by
  induction fuel generalizing received with
  | zero => rfl
  | succ fuel ih =>
    rw [parseLoop, parseStep_hostileHeader]
    exact ih _

/-- The hostile header breaks the loop: it never ends, and it delivers an empty message. -/
theorem hostile_header_unsound :
    ¬ SoundLoop defaultConfig (listBuffer 64) id (fun _ _ => true) ⟨hostileHeader, []⟩ ∧
      (∀ fuel, parseLoop defaultConfig (listBuffer 64) (fun _ _ => true) fuel
        ⟨hostileHeader, []⟩ = .error .diverged) ∧
      parseStep defaultConfig (listBuffer 64) (fun _ _ => true) ⟨hostileHeader, []⟩ =
        .again ⟨hostileHeader, [[]]⟩ := by
  refine ⟨?_, fun fuel => parseLoop_hostileHeader fuel [], parseStep_hostileHeader []⟩
  intro hsound
  obtain ⟨fuel, result, hloop⟩ := hsound.terminates
  rw [parseLoop_hostileHeader] at hloop
  cases hloop

end Loop

end HakunaMatata.CodecBytes
