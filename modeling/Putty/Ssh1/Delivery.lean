/-
  Putty.Ssh1.Delivery — what is delivered of an SSH-1 stream, over every run of the
  binary packet protocol.

  Proved: `input_safe_iff`. The two limits on a length differ (`longest_packet_asserts`),
  and what decompresses to nothing is delivered with a length of -1.
-/

import Putty.Ssh1.Bpp
import Putty.Zlib.Malformed

namespace Putty.Ssh1

open Putty.Utils Putty.Zlib

variable {σ : Type} {alg : CipherAlg σ}

/-! ## What is claimed of a run -/

/-- detect_attack's limit. -/
def limit : Nat := maxblocks * blocksize

/-- The length field that ends at `n`. -/
def lengthAt (received : List UInt8) (n : Nat) : Int := toint (BinarySource.get32BitMsbFirst ((received.drop (n - 4)).take 4))

/-- A packet's data is what follows its length. -/
structure ReadFrom (received : List UInt8) (o : Origin σ) : Prop where
  field : 4 ≤ o.start
  len : lengthAt received o.start = o.len
  whole : o.start + biglen o.len ≤ received.length
  data : (received.drop o.start).take (biglen o.len) = o.data

/-- The plain data of a packet that is no attack. -/
def Plain (alg : CipherAlg σ) (o : Origin σ) (plain : List UInt8) : Prop :=
  match o.cipherIn with
  | none => plain = o.data
  | some c => (∃ n, detectAttack o.crcda o.data o.iv = some (n, false)) ∧ ∃ c', alg.decrypt c o.data = some (plain, c')

def CrcMatches (plain : List UInt8) : Prop :=
  BinarySource.get32BitMsbFirst (plain.drop (plain.length - 4)) = crc32Ssh1 (plain.take (plain.length - 4))

/-- The type byte and the payload are these bytes. -/
structure Within (pkt : PktIn) (bytes : List UInt8) : Prop where
  length : 0 ≤ pkt.length
  inside : pkt.length.toNat ≤ pkt.data.length
  bytes : pkt.type :: pkt.data.take pkt.length.toNat = bytes

/-- What the packet is to consist of: the decompressed data, if there is compression. -/
def Holds (o : Origin σ) (plain bytes : List UInt8) : Prop :=
  match o.decompctx with
  | none => bytes = contents o.len plain
  | some ctx => ∃ ctx', decompressBlock ctx (contents o.len plain) = some (ctx', some bytes)

/-- A packet that may be delivered. -/
structure Vouched (alg : CipherAlg σ) (received : List UInt8) (o : Origin σ) (pkt : PktIn) : Prop where
  read : ReadFrom received o
  packet : ∃ plain bytes, Plain alg o plain ∧ CrcMatches plain ∧ Holds o plain bytes ∧ Within pkt bytes

/-- The bytes of a run. -/
def stream (evs : List (Ev σ)) : List UInt8 :=
  evs.flatMap fun
    | .arrive data => data
    | _ => []

/-- The state after a run is reached without a failed assertion, and the lengths and the
    packets accepted so far are as they should be. -/
structure Safe (alg : CipherAlg σ) (evs : List (Ev σ)) (t : St σ) : Prop where
  received : t.freed = false → t.received = stream evs
  accepted : ∀ len ∈ t.accepted, biglen len ≤ limit
  vouched : ∀ d ∈ t.delivered, Vouched alg t.received d.1 d.2

/-- The length that is read is not the longest, and what is decompressed is decompressed to
    something, and not after a failure. -/
def Fits (alg : CipherAlg σ) (t : St σ) : Prop :=
  match t.crState with
  | none => ∀ lenbuf t', bppRead t 4 = .done lenbuf t' → toint (BinarySource.get32BitMsbFirst lenbuf) ≠ 262144
  | some len => ∀ data t1 plain t2 ctx, bppRead t (biglen len) = .done data t1 → check alg t1 data = some (.good plain, t2) →
      t2.decompctx = some ctx → ctx.outblk = none ∧ ∀ ctx', decompressBlock ctx (contents len plain) ≠ some (ctx', some [])

def FitsLoop (alg : CipherAlg σ) (raw : Ctx) : Nat → St σ → Prop
  | 0, _ => True
  | fuel + 1, t => Fits alg t ∧ ∀ t', turn alg t raw = some (t', true) → FitsLoop alg raw fuel t'

def Sound (alg : CipherAlg σ) (t : St σ) : Ev σ → Prop
  | .handleInput raw => t.freed = true ∨ FitsLoop alg raw (t.inRaw.length + 1) t
  | _ => True

/-! ## The queue of raw data -/

theorem bppRead_done {t t' : St σ} {n : Nat} {bytes : List UInt8} (h : bppRead t n = .done bytes t') :
    n ≤ t.inRaw.length ∧ bytes = t.inRaw.take n ∧ t' = { t with inRaw := t.inRaw.drop n, taken := t.taken + n } := by
  unfold bppRead at h
  split at h
  · next hn => cases h; exact ⟨hn, rfl, rfl⟩
  · split at h <;> cases h

theorem padOf_pos (len : Nat) : 0 < padOf len ∧ padOf len ≤ 8 := by
  unfold padOf
  omega

theorem biglen_mod (len : Nat) : biglen len % blocksize = 0 := by
  unfold biglen padOf blocksize
  omega

theorem biglen_le {len : Nat} (h : len < 262144) : biglen len ≤ limit := by
  unfold biglen padOf limit maxblocks blocksize
  omega

theorem biglen_longest : limit < biglen 262144 := by decide

/-! ## The checks -/

theorem check_spec (t : St σ) (data : List UInt8) (htable : t.cipherIn.isSome → ∃ m, t.crcda = 2 ^ m)
    (hmod : data.length % blocksize = 0) (hmax : data.length ≤ limit) :
    ∃ r iv n c, check alg t data = some (r, { t with iv := iv, crcda := n, cipherIn := c }) ∧
      (c.isSome → ∃ m, n = 2 ^ m) ∧
      ∀ plain, r = .good plain → plain.length = data.length ∧ CrcMatches plain ∧
        match t.cipherIn with
        | none => plain = data
        | some c => (∃ n, detectAttack t.crcda data t.iv = some (n, false)) ∧ ∃ c', alg.decrypt c data = some (plain, c') := by
  unfold check
  dsimp only
  cases hc : t.cipherIn with
  | none =>
    dsimp only
    split
    · exact ⟨_, _, _, none, by rw [← hc], fun hs => Bool.noConfusion hs, fun plain hp => by cases hp⟩
    · next hcrc =>
      refine ⟨_, _, _, none, by rw [← hc], fun hs => Bool.noConfusion hs, fun plain hp => ?_⟩
      cases hp
      exact ⟨rfl, not_not.mp hcrc, rfl⟩
  | some c =>
    dsimp only
    obtain ⟨m, hm⟩ := htable (by rw [hc]; rfl)
    rw [hm]
    obtain ⟨k, attack, hattack⟩ := detectAttack_isSome (m := m) t.iv hmax hmod
    rw [hattack, Option.bind_some]
    dsimp only
    cases attack with
    | true =>
      exact ⟨_, _, _, some c, by rw [← hc]; rfl, fun _ => ⟨k, rfl⟩, fun plain hp => by cases hp⟩
    | false =>
      obtain ⟨out, c', hdec, hlen⟩ := alg.whole c data hmod
      rw [if_neg Bool.false_ne_true, hdec, Option.bind_some]
      dsimp only
      split
      · exact ⟨_, _, _, some c', rfl, fun _ => ⟨k, rfl⟩, fun plain hp => by cases hp⟩
      · next hcrc =>
        refine ⟨_, _, _, some c', rfl, fun _ => ⟨k, rfl⟩, fun plain hp => ?_⟩
        cases hp
        refine ⟨hlen, ?_, ⟨2 ^ k, rfl⟩, c', rfl⟩
        rw [CrcMatches, hlen]
        exact not_not.mp hcrc

/-! ## The decompression -/

/-- A decompressor that no call has failed on, or one that keeps the output of a failed call. -/
def Kept (decompctx : Option Ctx) : Prop := ∀ ctx, decompctx = some ctx → ctx.outblk = none → Idle ctx

theorem contents_length {len : Nat} (h : 5 ≤ len) {plain : List UInt8} (hp : plain.length = biglen len) :
    (contents len plain).length = len - 4 ∧ (plain.drop (padOf len)).length = len := by
  have hd : (plain.drop (padOf len)).length = len := by
    rw [List.length_drop, hp]
    unfold biglen
    omega
  rw [contents, List.length_take, hd]
  omega

/-- A buffer that starts with the bytes, of which all but the first are the payload. -/
theorem within_of_take {type : UInt8} {data bytes : List UInt8} {n : Nat} (h : (type :: data).take (n + 1) = bytes)
    (hn : n ≤ data.length) : Within ⟨type, data, n⟩ bytes :=
  ⟨Int.natCast_nonneg n, hn, by rw [← h]; rfl⟩

theorem decompress_plain {t : St σ} {len : Nat} {plain : List UInt8} (h5 : 5 ≤ len) (hp : plain.length = biglen len)
    (hd : t.decompctx = none) :
    ∃ type data, decompress t len plain = some (.ok (type :: data, (len : Int) - 5), t) ∧
      Within ⟨type, data, (len : Int) - 5⟩ (contents len plain) := by
  obtain ⟨-, hlen⟩ := contents_length h5 hp
  rw [decompress, hd]
  cases hb : plain.drop (padOf len) with
  | nil =>
    rw [hb, List.length_nil] at hlen
    omega
  | cons type data =>
    refine ⟨type, data, rfl, ?_⟩
    rw [hb, List.length_cons] at hlen
    have hn : (len : Int) - 5 = ((len - 5 : Nat) : Int) := by omega
    rw [hn]
    refine within_of_take ?_ (by omega)
    rw [contents, hb, show len - 5 + 1 = len - 4 by omega]

theorem decompress_zlib {t : St σ} (len : Nat) (plain : List UInt8) {ctx : Ctx} (hd : t.decompctx = some ctx)
    (hk : Kept t.decompctx) (ho : ctx.outblk = none) :
    ∃ c r, decompressBlock ctx (contents len plain) = some (c, r) ∧ Kept (some c) ∧
      decompress t len plain = some (match r with
        | none => (.error .decompression, { t with decompctx := some c })
        | some out => (.ok (out ++ plain.drop (padOf len + out.length), (out.length : Int) - 1), { t with decompctx := some c })) := by
  obtain ⟨c, r, hc, hidle, hfail, -⟩ := decompressBlock_ok (contents len plain) (hk ctx hd ho)
  refine ⟨c, r, hc, fun ctx' hctx' ho' => ?_, ?_⟩
  · cases hctx'
    cases r with
    | none => exact absurd ho' (hfail rfl)
    | some out => exact hidle rfl
  · rw [decompress, hd]
    dsimp only
    cases r <;> exact congrArg (Option.map _) hc

/-! ## Delivering -/

/-- Delivering leaves everything else, but for a request for compression that is answered. -/
theorem deliver_spec (t : St σ) (o : Origin σ) (type : UInt8) (data : List UInt8) (length : Int) (raw : Ctx)
    (hpend : t.pendingCompressionRequest = true → t.decompctx = none) (hk : Kept t.decompctx) :
    ∃ p d, deliver t o (type :: data) length raw = some { t with
      crState := none, delivered := t.delivered ++ [(o, ⟨type, data, length⟩)], pendingCompressionRequest := p, decompctx := d } ∧
      (p = true → d = none) ∧ Kept d := by
  rw [deliver, noteType]
  by_cases htype : type = SSH1_SMSG_SUCCESS ∨ type = SSH1_SMSG_FAILURE
  · rw [if_pos htype]
    dsimp only
    by_cases hp : t.pendingCompressionRequest = true
    · rw [if_pos hp]
      by_cases hs : type = SSH1_SMSG_SUCCESS
      · obtain ⟨a, b, hinit⟩ := decompressInit_total
        rw [if_pos hs, ssh1BppStartCompression]
        dsimp only
        rw [hpend hp, if_neg (by simp), (hinit raw).1]
        refine ⟨false, some (freshWith raw a b), rfl, fun hf => Bool.noConfusion hf, fun ctx hctx _ => ?_⟩
        cases hctx
        exact (hinit raw).2
      · rw [if_neg hs]
        exact ⟨false, t.decompctx, rfl, fun hf => Bool.noConfusion hf, hk⟩
    · rw [if_neg hp]
      exact ⟨t.pendingCompressionRequest, t.decompctx, rfl, hpend, hk⟩
  · rw [if_neg htype]
    exact ⟨t.pendingCompressionRequest, t.decompctx, rfl, hpend, hk⟩

/-! ## The invariant -/

structure Inv (alg : CipherAlg σ) (t : St σ) : Prop where
  table : t.cipherIn.isSome → ∃ m, t.crcda = 2 ^ m
  awaited : ∀ len, t.crState = some len → 5 ≤ len ∧ biglen len ≤ limit ∧ 4 ≤ t.taken ∧ lengthAt t.received t.taken = len
  kept : Kept t.decompctx
  pending : t.pendingCompressionRequest = true → t.decompctx = none
  queue : t.inRaw = t.received.drop t.taken
  taken : t.taken ≤ t.received.length
  accepted : ∀ len ∈ t.accepted, biglen len ≤ limit
  vouched : ∀ d ∈ t.delivered, Vouched alg t.received d.1 d.2

/-- A length that is too long was accepted, or a packet delivered that ends before it begins. -/
def Broken (t : St σ) : Prop := (∃ len ∈ t.accepted, limit < biglen len) ∨ ∃ d ∈ t.delivered, d.2.length < 0

theorem Broken.not_safe {t : St σ} (h : Broken t) (evs : List (Ev σ)) : ¬ Safe alg evs t := by
  intro hs
  rcases h with ⟨len, hlen, hlt⟩ | ⟨d, hd, hneg⟩
  · exact absurd (hs.accepted len hlen) (by omega)
  · obtain ⟨_, _, _, _, _, hwithin⟩ := (hs.vouched d hd).packet
    exact absurd hwithin.length (by omega)

/-- Taking bytes from the queue. -/
theorem Inv.read {t : St σ} (h : Inv alg t) {n : Nat} (hn : n ≤ t.inRaw.length) :
    t.inRaw.drop n = t.received.drop (t.taken + n) ∧ t.taken + n ≤ t.received.length ∧
      t.inRaw.take n = (t.received.drop t.taken).take n := by
  have hq := h.queue
  have ht := h.taken
  rw [hq, List.length_drop] at hn
  exact ⟨by rw [hq, List.drop_drop], by omega, by rw [hq]⟩

theorem toint_range {u : UInt32} (h5 : ¬ (toint u < 5 ∨ 262144 < toint u)) (hne : toint u ≠ 262144) :
    ((toint u).toNat : Int) = toint u ∧ 5 ≤ (toint u).toNat ∧ (toint u).toNat < 262144 := by
  omega

/-! ## A packet -/

/-- The invariant after bytes were taken and a packet dealt with. -/
theorem Inv.after {t : St σ} (h : Inv alg t) {n : Nat} (hn : n ≤ t.inRaw.length) {cipherIn : Option σ} {crcda : Nat}
    (iv : List UInt8) {p : Bool} {d : Option Ctx} (aborts : List Abort) {delivered : List (Origin σ × PktIn)}
    (htable : cipherIn.isSome → ∃ m, crcda = 2 ^ m) (hkept : Kept d) (hpend : p = true → d = none)
    (hvouched : ∀ x ∈ delivered, Vouched alg t.received x.1 x.2) :
    Inv alg { t with
      crState := none, cipherIn := cipherIn, crcda := crcda, iv := iv, pendingCompressionRequest := p, decompctx := d
      inRaw := t.inRaw.drop n, taken := t.taken + n, aborts := aborts, delivered := delivered } := by
  obtain ⟨hq, ht, -⟩ := h.read hn
  exact ⟨htable, fun len hlen => Option.noConfusion rfl (heq_of_eq hlen), hkept, hpend, hq, ht, h.accepted, hvouched⟩

/-- What is asked of a packet that is there. -/
def PacketFits (alg : CipherAlg σ) (t : St σ) (len : Nat) (data : List UInt8) : Prop :=
  ∀ plain t2 ctx, check alg t data = some (.good plain, t2) → t2.decompctx = some ctx →
    ctx.outblk = none ∧ ∀ ctx', decompressBlock ctx (contents len plain) ≠ some (ctx', some [])

/-- A packet that fits keeps the invariant, and another one breaks what is claimed or
    fails an assertion. -/
theorem packet_spec {t : St σ} (h : Inv alg t) {len : Nat} (hst : t.crState = some len) (hn : biglen len ≤ t.inRaw.length) (raw : Ctx) :
    let t1 := { t with inRaw := t.inRaw.drop (biglen len), taken := t.taken + biglen len }
    let data := t.inRaw.take (biglen len)
    (PacketFits alg t1 len data ∧ ∃ t' go, packet alg t1 len data raw = some (t', go) ∧ Inv alg t' ∧ t'.received = t.received) ∨
      (¬ PacketFits alg t1 len data ∧ ∀ t' go, packet alg t1 len data raw = some (t', go) → Broken t') := by
  intro t1 data
  obtain ⟨h5, hmax, h4, hat⟩ := h.awaited len hst
  have hdata : data.length = biglen len := List.length_take_of_le hn
  obtain ⟨-, htaken, htake⟩ := h.read hn
  obtain ⟨r, iv, n, c, hcheck, htable, hgood⟩ := check_spec t1 data h.table
    (by rw [hdata]; exact biglen_mod len) (by rw [hdata]; exact hmax)
  have horigin : ReadFrom t.received (⟨t1.taken - data.length, len, data, t1.cipherIn, t1.crcda, t1.iv, t1.decompctx⟩ : Origin σ) := by
    have hstart : t1.taken - data.length = t.taken := by rw [hdata]; exact Nat.add_sub_cancel _ _
    refine ⟨hstart ▸ h4, hstart ▸ hat, ?_, ?_⟩
    · show t1.taken - data.length + biglen len ≤ _
      omega
    · show (t.received.drop (t1.taken - data.length)).take (biglen len) = data
      rw [hstart]
      exact htake.symm
  have hvouch : ∀ {plain bytes : List UInt8} {pkt : PktIn}, r = .good plain →
      (match t.decompctx with
        | none => bytes = contents len plain
        | some ctx => ∃ ctx', decompressBlock ctx (contents len plain) = some (ctx', some bytes)) → Within pkt bytes →
      Vouched alg t.received (⟨t1.taken - data.length, len, data, t1.cipherIn, t1.crcda, t1.iv, t1.decompctx⟩ : Origin σ) pkt :=
    fun hr hb hw => ⟨horigin, _, _, (hgood _ hr).2.2, (hgood _ hr).2.1, hb, hw⟩
  have hsnoc : ∀ {o : Origin σ} {pkt : PktIn}, Vouched alg t.received o pkt →
      ∀ x ∈ t.delivered ++ [(o, pkt)], Vouched alg t.received x.1 x.2 := fun hv x hx => by
    rcases List.mem_append.mp hx with hx | hx
    · exact h.vouched x hx
    · cases List.mem_singleton.mp hx
      exact hv
  clear horigin
  unfold packet
  generalize (⟨t1.taken - data.length, len, data, t1.cipherIn, t1.crcda, t1.iv, t1.decompctx⟩ : Origin σ) = o at hvouch ⊢
  rw [hcheck, Option.bind_some]
  cases r with
  | bad a =>
    refine .inl ⟨fun plain t2 ctx hc => ?_, _, _, rfl, h.after hn iv _ htable h.kept h.pending h.vouched, rfl⟩
    rw [hcheck] at hc
    cases hc
  | good plain =>
    dsimp only
    have hplain : plain.length = biglen len := (hgood plain rfl).1.trans hdata
    generalize ht2 : ({ t1 with iv := iv, crcda := n, cipherIn := c } : St σ) = t2 at hcheck ⊢
    have hd2 : t2.decompctx = t.decompctx := by rw [← ht2]
    have hk2 : Kept t2.decompctx := hd2 ▸ h.kept
    have hp2 : t2.pendingCompressionRequest = true → t2.decompctx = none := by rw [← ht2]; exact h.pending
    cases hd : t.decompctx with
    | none =>
      obtain ⟨type, rest, hdec, hwithin⟩ := decompress_plain (t := t2) h5 hplain (hd2.trans hd)
      obtain ⟨p, d, hdel, hpd, hkd⟩ := deliver_spec t2 o type rest ((len : Int) - 5) raw hp2 hk2
      refine .inl ⟨fun plain' t2' ctx hc hctx => ?_, ?_⟩
      · rw [hcheck] at hc
        cases hc
        rw [hd2, hd] at hctx
        cases hctx
      · rw [hdec, Option.bind_some]
        dsimp only
        rw [hdel]
        refine ⟨_, _, rfl, ?_, ?_⟩
        · subst ht2
          exact h.after hn iv _ htable hkd hpd (hsnoc (hvouch rfl (by rw [hd]) hwithin))
        · subst ht2; rfl
    | some ctx =>
      by_cases ho : ctx.outblk = none
      · obtain ⟨c', r', hblock, hkc, hdec⟩ := decompress_zlib len plain (hd2.trans hd) hk2 ho
        have hpnone : ∀ x : Option Ctx, t2.pendingCompressionRequest = true → x = none := fun x hp => by
          rw [hd2, hd] at hp2
          cases hp2 hp
        cases r' with
        | none =>
          refine .inl ⟨fun plain' t2' ctx' hc hctx => ?_, ?_⟩
          · rw [hcheck] at hc
            cases hc
            rw [hd2, hd] at hctx
            cases hctx
            refine ⟨ho, fun ctx' hb => ?_⟩
            rw [hblock] at hb
            cases hb
          · rw [hdec, Option.bind_some]
            refine ⟨_, _, rfl, ?_, ?_⟩
            · subst ht2
              exact h.after hn iv _ htable hkc (hpnone _) h.vouched
            · subst ht2; rfl
        | some out =>
          rw [hdec, Option.bind_some]
          dsimp only
          cases out with
          | nil =>
            refine .inr ⟨fun hfits => (hfits plain t2 ctx hcheck (hd2.trans hd)).2 c' hblock, fun t' go hpkt => ?_⟩
            obtain ⟨-, hlen⟩ := contents_length h5 hplain
            cases hb : plain.drop (padOf len) with
            | nil =>
              rw [hb, List.length_nil] at hlen
              omega
            | cons type rest =>
              have hbuf : [] ++ plain.drop (padOf len + ([] : List UInt8).length) = type :: rest := hb
              obtain ⟨p, d, hdel, -, -⟩ := deliver_spec ({ t2 with decompctx := some c' } : St σ) o type rest
                ((([] : List UInt8).length : Int) - 1) raw (hpnone _) hkc
              rw [hbuf, hdel] at hpkt
              cases hpkt
              exact .inr ⟨_, List.mem_append_right _ List.mem_cons_self, show (([] : List UInt8).length : Int) - 1 < 0 by decide⟩
          | cons type rest =>
            obtain ⟨p, d, hdel, hpd, hkd⟩ := deliver_spec ({ t2 with decompctx := some c' } : St σ) o type
              (rest ++ plain.drop (padOf len + (type :: rest).length)) (((type :: rest).length : Int) - 1) raw (hpnone _) hkc
            have hwithin : Within ⟨type, rest ++ plain.drop (padOf len + (type :: rest).length), ((type :: rest).length : Int) - 1⟩
                (type :: rest) := by
              have hn : (((type :: rest).length : Nat) : Int) - 1 = (rest.length : Nat) := by
                rw [List.length_cons]
                omega
              rw [hn]
              refine within_of_take ?_ (by rw [List.length_append]; omega)
              rw [List.take_succ_cons, List.take_left]
            refine .inl ⟨fun plain' t2' ctx' hc hctx => ?_, ?_⟩
            · rw [hcheck] at hc
              cases hc
              rw [hd2, hd] at hctx
              cases hctx
              refine ⟨ho, fun ctx' hb => ?_⟩
              rw [hblock] at hb
              cases hb
            · rw [List.cons_append, hdel]
              refine ⟨_, _, rfl, ?_, ?_⟩
              · subst ht2
                exact h.after hn iv _ htable hkd hpd (hsnoc (hvouch rfl (by rw [hd]; exact ⟨c', hblock⟩) hwithin))
              · subst ht2; rfl
      · refine .inr ⟨fun hfits => ho (hfits plain t2 ctx hcheck (hd2.trans hd)).1, fun t' go hpkt => ?_⟩
        have hnone : decompressBlock ctx (contents len plain) = none := if_pos (Option.isSome_iff_ne_none.mpr ho)
        rw [decompress, hd2, hd] at hpkt
        dsimp only at hpkt
        rw [hnone] at hpkt
        cases hpkt

/-! ## A turn -/

/-- What has been accepted and delivered is not taken back, and nor is the raw data. -/
structure Grows (t t' : St σ) : Prop where
  accepted : ∀ len ∈ t.accepted, len ∈ t'.accepted
  delivered : ∀ d ∈ t.delivered, d ∈ t'.delivered
  inRaw : t'.inRaw.length ≤ t.inRaw.length

theorem Grows.of_eq {t t' : St σ} (h1 : t'.accepted = t.accepted) (h2 : t'.delivered = t.delivered)
    (h3 : t'.inRaw = t.inRaw) : Grows t t' :=
  ⟨fun _ h => h1 ▸ h, fun _ h => h2 ▸ h, Nat.le_of_eq (congrArg _ h3)⟩

theorem Grows.trans {t1 t2 t3 : St σ} (h : Grows t1 t2) (h' : Grows t2 t3) : Grows t1 t3 :=
  ⟨fun x hx => h'.accepted x (h.accepted x hx), fun x hx => h'.delivered x (h.delivered x hx), Nat.le_trans h'.inRaw h.inRaw⟩

theorem Broken.grows {t t' : St σ} (h : Broken t) (hg : Grows t t') : Broken t' := by
  rcases h with ⟨len, hlen, hlt⟩ | ⟨d, hd, hneg⟩
  · exact .inl ⟨len, hg.accepted len hlen, hlt⟩
  · exact .inr ⟨d, hg.delivered d hd, hneg⟩

theorem check_grows {t t' : St σ} {data : List UInt8} {r : Checked} (h : check alg t data = some (r, t')) : Grows t t' := by
  unfold check at h
  dsimp only at h
  split at h
  · split at h <;> (cases h; exact .of_eq rfl rfl rfl)
  · obtain ⟨a, -, ha⟩ := Option.bind_eq_some_iff.mp h
    split at ha
    · cases ha
      exact .of_eq rfl rfl rfl
    · obtain ⟨d, -, hd⟩ := Option.bind_eq_some_iff.mp ha
      split at hd <;> (cases hd; exact .of_eq rfl rfl rfl)

theorem decompress_grows {t t' : St σ} {len : Nat} {plain : List UInt8} {r : Except Abort (List UInt8 × Int)}
    (h : decompress t len plain = some (r, t')) : Grows t t' := by
  unfold decompress at h
  split at h
  · cases h
    exact .of_eq rfl rfl rfl
  · obtain ⟨a, -, ha⟩ := Option.map_eq_some_iff.mp h
    split at ha <;> (cases ha; exact .of_eq rfl rfl rfl)

theorem noteType_grows {t t' : St σ} {type : UInt8} {raw : Ctx} (h : noteType t type raw = some t') : Grows t t' := by
  unfold noteType at h
  split at h
  · split at h
    · obtain ⟨u, hu, rfl⟩ := Option.map_eq_some_iff.mp h
      split at hu
      · unfold ssh1BppStartCompression at hu
        split at hu
        · cases hu
        · obtain ⟨ctx, -, rfl⟩ := Option.map_eq_some_iff.mp hu
          exact .of_eq rfl rfl rfl
      · cases hu
        exact .of_eq rfl rfl rfl
    · cases h
      exact .of_eq rfl rfl rfl
  · cases h
    exact .of_eq rfl rfl rfl

theorem deliver_grows {t t' : St σ} {o : Origin σ} {buffer : List UInt8} {length : Int} {raw : Ctx}
    (h : deliver t o buffer length raw = some t') : Grows t t' := by
  unfold deliver at h
  split at h
  · cases h
  · have hnote := noteType_grows h
    exact ⟨hnote.accepted, fun d hd => hnote.delivered d (List.mem_append_left _ hd), hnote.inRaw⟩

theorem packet_grows {t t' : St σ} {len : Nat} {data : List UInt8} {raw : Ctx} {go : Bool}
    (h : packet alg t len data raw = some (t', go)) : Grows t t' := by
  obtain ⟨⟨r, t2⟩, hc, h2⟩ := Option.bind_eq_some_iff.mp h
  refine (check_grows hc).trans ?_
  cases r with
  | bad a => cases h2; exact .of_eq rfl rfl rfl
  | good plain =>
    obtain ⟨⟨r, t3⟩, hd, h3⟩ := Option.bind_eq_some_iff.mp h2
    refine (decompress_grows hd).trans ?_
    cases r with
    | error a => cases h3; exact .of_eq rfl rfl rfl
    | ok b =>
      obtain ⟨t4, h4, he⟩ := Option.map_eq_some_iff.mp h3
      cases he
      exact deliver_grows h4

theorem turn_grows {t t' : St σ} {raw : Ctx} {go : Bool} (h : turn alg t raw = some (t', go)) :
    Grows t t' ∧ (go = true → t'.inRaw.length < t.inRaw.length) := by
  have hsame : ∀ {t' : St σ}, some (t', false) = some (t', go) → (go = true → t'.inRaw.length < t.inRaw.length) := fun he hg => by
    cases he
    cases hg
  unfold turn at h
  split at h
  · split at h
    · cases h; exact ⟨.of_eq rfl rfl rfl, hsame rfl⟩
    · cases h; exact ⟨.of_eq rfl rfl rfl, hsame rfl⟩
    · next hr =>
      obtain ⟨hn, -, rfl⟩ := bppRead_done hr
      dsimp only at h
      have hlen : (t.inRaw.drop 4).length + 4 = t.inRaw.length := by
        rw [List.length_drop]
        omega
      split at h
      · cases h
        exact ⟨⟨fun _ hx => hx, fun _ hx => hx, show (t.inRaw.drop 4).length ≤ _ by omega⟩, hsame rfl⟩
      · cases h
        exact ⟨⟨fun _ hx => List.mem_append_left _ hx, fun _ hx => hx, show (t.inRaw.drop 4).length ≤ _ by omega⟩,
          fun _ => show (t.inRaw.drop 4).length < _ by omega⟩
  · next len _ =>
    split at h
    · cases h; exact ⟨.of_eq rfl rfl rfl, hsame rfl⟩
    · cases h; exact ⟨.of_eq rfl rfl rfl, hsame rfl⟩
    · next hr =>
      obtain ⟨hn, -, rfl⟩ := bppRead_done hr
      have hpacket := packet_grows h
      have hlen : (t.inRaw.drop (biglen len)).length + biglen len = t.inRaw.length := by
        rw [List.length_drop]
        omega
      have hle : t'.inRaw.length ≤ (t.inRaw.drop (biglen len)).length := hpacket.inRaw
      have hpos : 0 < biglen len := Nat.lt_of_lt_of_le (padOf_pos len).1 (Nat.le_add_left _ _)
      exact ⟨⟨hpacket.accepted, hpacket.delivered, by omega⟩, fun _ => by omega⟩

theorem Inv.free {t : St σ} (h : Inv alg t) : Inv alg { t with freed := true } :=
  ⟨h.table, h.awaited, h.kept, h.pending, h.queue, h.taken, h.accepted, h.vouched⟩

theorem turn_spec {t : St σ} (h : Inv alg t) (raw : Ctx) :
    (Fits alg t ∧ ∃ t' go, turn alg t raw = some (t', go) ∧ Inv alg t' ∧ t'.received = t.received) ∨
      (¬ Fits alg t ∧ ∀ t' go, turn alg t raw = some (t', go) → Broken t') := by
  unfold Fits turn
  cases hst : t.crState with
  | none =>
    dsimp only
    cases hr : bppRead t 4 with
    | wait =>
      refine .inl ⟨fun lenbuf t' hl => ?_, t, false, rfl, h, rfl⟩
      cases hl
    | eof =>
      refine .inl ⟨fun lenbuf t' hl => ?_, _, false, rfl, hst ▸ h.free, rfl⟩
      cases hl
    | done lenbuf t1 =>
      obtain ⟨hn, hbytes, rfl⟩ := bppRead_done hr
      obtain ⟨hq, htaken, htake⟩ := h.read hn
      dsimp only
      by_cases hrange : toint (BinarySource.get32BitMsbFirst lenbuf) < 5 ∨ 262144 < toint (BinarySource.get32BitMsbFirst lenbuf)
      · rw [if_pos hrange]
        refine .inl ⟨fun lenbuf' t' hl => ?_, _, false, rfl,
          h.after hn t.iv _ h.table h.kept h.pending h.vouched, rfl⟩
        cases hl
        omega
      · rw [if_neg hrange]
        by_cases hlong : toint (BinarySource.get32BitMsbFirst lenbuf) = 262144
        · refine .inr ⟨fun hf => hf _ _ rfl hlong, fun t' go ht => ?_⟩
          cases ht
          refine .inl ⟨_, List.mem_append_right _ List.mem_cons_self, ?_⟩
          rw [hlong]
          exact biglen_longest
        · obtain ⟨hcast, h5, hlt⟩ := toint_range hrange hlong
          refine .inl ⟨fun lenbuf' t' hl => ?_, _, true, rfl, ⟨h.table, fun len hlen => ?_, h.kept, h.pending, hq, htaken,
            fun len hlen => ?_, h.vouched⟩, rfl⟩
          · cases hl
            exact hlong
          · cases hlen
            refine ⟨h5, biglen_le hlt, Nat.le_add_left _ _, ?_⟩
            show lengthAt t.received (t.taken + 4) = _
            rw [lengthAt, Nat.add_sub_cancel, ← htake, ← hbytes, hcast]
          · rcases List.mem_append.mp hlen with hlen | hlen
            · exact h.accepted len hlen
            · rw [List.mem_singleton.mp hlen]
              exact biglen_le hlt
  | some len =>
    dsimp only
    cases hr : bppRead t (biglen len) with
    | wait =>
      refine .inl ⟨fun data t1 plain t2 ctx hl => ?_, t, false, rfl, h, rfl⟩
      cases hl
    | eof =>
      refine .inl ⟨fun data t1 plain t2 ctx hl => ?_, _, false, rfl, hst ▸ h.free, rfl⟩
      cases hl
    | done data t1 =>
      obtain ⟨hn, rfl, rfl⟩ := bppRead_done hr
      rcases packet_spec h hst hn raw with ⟨hfits, t', go, ht', hinv, hrec⟩ | ⟨hno, hbad⟩
      · refine .inl ⟨fun data t1 plain t2 ctx hl hc hctx => ?_, t', go, ht', hinv, hrec⟩
        cases hl
        exact hfits plain t2 ctx hc hctx
      · exact .inr ⟨fun hf => hno fun plain t2 ctx hc hctx => hf _ _ plain t2 ctx rfl hc hctx, hbad⟩

/-! ## Calls and runs -/

theorem loop_grows {raw : Ctx} (fuel : Nat) {t t' : St σ} (h : loop alg raw fuel t = some t') : Grows t t' := by
  induction fuel generalizing t with
  | zero => cases h; exact .of_eq rfl rfl rfl
  | succ fuel ih =>
    obtain ⟨⟨t1, go⟩, ht1, h1⟩ := Option.bind_eq_some_iff.mp h
    cases go with
    | false => cases h1; exact (turn_grows ht1).1
    | true => exact (turn_grows ht1).1.trans (ih h1)

theorem loop_spec (raw : Ctx) (fuel : Nat) {t : St σ} (h : Inv alg t) :
    (FitsLoop alg raw fuel t ∧ ∃ t', loop alg raw fuel t = some t' ∧ Inv alg t' ∧ t'.received = t.received) ∨
      (¬ FitsLoop alg raw fuel t ∧ ∀ t', loop alg raw fuel t = some t' → Broken t') := by
  induction fuel generalizing t with
  | zero => exact .inl ⟨trivial, t, rfl, h, rfl⟩
  | succ fuel ih =>
    rw [FitsLoop, loop]
    rcases turn_spec h raw with ⟨hfits, t1, go, ht1, hinv, hrec⟩ | ⟨hno, hbad⟩
    · rw [ht1, Option.bind_some]
      cases go with
      | false =>
        refine .inl ⟨⟨hfits, fun t' ht' => ?_⟩, t1, rfl, hinv, hrec⟩
        cases ht'
      | true =>
        rcases ih hinv with ⟨hloop, t', ht', hinv', hrec'⟩ | ⟨hno, hbad⟩
        · refine .inl ⟨⟨hfits, fun t' ht' => ?_⟩, t', ht', hinv', hrec'.trans hrec⟩
          cases ht'
          exact hloop
        · exact .inr ⟨fun hf => hno (hf.2 t1 rfl), hbad⟩
    · refine .inr ⟨fun hf => hno hf.1, fun t' ht' => ?_⟩
      obtain ⟨⟨t1, go⟩, ht1, h1⟩ := Option.bind_eq_some_iff.mp ht'
      have hb := hbad t1 go ht1
      cases go with
      | false => cases h1; exact hb
      | true => exact hb.grows (loop_grows fuel h1)

theorem inv_new (alg : CipherAlg σ) : Inv alg (ssh1BppNew : St σ) := by
  refine ⟨fun h => Bool.noConfusion h, ?_, ?_, fun _ => rfl, rfl, Nat.le_refl _, ?_, ?_⟩
  · intro len h
    cases h
  · intro ctx h
    cases h
  · intro len h
    cases h
  · intro d h
    cases h

theorem lengthAt_append {received : List UInt8} {n : Nat} (h4 : 4 ≤ n) (h : n ≤ received.length) (data : List UInt8) :
    lengthAt (received ++ data) n = lengthAt received n := by
  rw [lengthAt, lengthAt, List.drop_append_of_le_length (by omega),
    List.take_append_of_le_length (by rw [List.length_drop]; omega)]

theorem Vouched.arrive {received : List UInt8} {o : Origin σ} {pkt : PktIn} (h : Vouched alg received o pkt) (data : List UInt8) :
    Vouched alg (received ++ data) o pkt := by
  have hlen := h.read.whole
  refine ⟨⟨h.read.field, ?_, ?_, ?_⟩, h.packet⟩
  · rw [lengthAt_append h.read.field (by omega)]
    exact h.read.len
  · rw [List.length_append]
    omega
  · rw [List.drop_append_of_le_length (by omega), List.take_append_of_le_length (by rw [List.length_drop]; omega)]
    exact h.read.data

theorem Inv.arrive {t : St σ} (h : Inv alg t) (data : List UInt8) :
    Inv alg { t with inRaw := t.inRaw ++ data, received := t.received ++ data } := by
  have ht := h.taken
  refine ⟨h.table, fun len hst => ?_, h.kept, h.pending, ?_, ?_, h.accepted, fun d hd => (h.vouched d hd).arrive data⟩
  · obtain ⟨h5, hmax, h4, hat⟩ := h.awaited len hst
    exact ⟨h5, hmax, h4, (lengthAt_append h4 ht data).trans hat⟩
  · rw [h.queue, List.drop_append_of_le_length ht]
  · rw [List.length_append]
    exact Nat.le_add_right_of_le ht

theorem Inv.newCipher {t : St σ} (h : Inv alg t) (c : σ) : Inv alg (ssh1BppNewCipher t c) :=
  ⟨fun _ => ⟨12, rfl⟩, h.awaited, h.kept, h.pending, h.queue, h.taken, h.accepted, h.vouched⟩

theorem stream_snoc (evs : List (Ev σ)) (e : Ev σ) : stream (evs ++ [e]) = stream evs ++ stream [e] := List.flatMap_append

/-- Input is handled safely, at every point of a run, just when no packet announces the
    longest length, and none that passes the checks decompresses to nothing or follows one
    that failed to decompress. -/
theorem input_safe_iff (alg : CipherAlg σ) (evs : List (Ev σ)) :
    Lib.Always (step alg) (Safe alg) ssh1BppNew evs ↔ Lib.Along (step alg) (Sound alg) ssh1BppNew evs := by
  refine Lib.always_iff_along (I := fun pre t => Inv alg t ∧ (t.freed = false → t.received = stream pre))
    ⟨inv_new alg, fun _ => rfl⟩ (fun pre t h => ⟨h.2, h.1.accepted, h.1.vouched⟩) ?_ ?_ evs
  · intro pre t e ⟨hinv, hrec⟩ hok
    by_cases hf : t.freed = true
    · exact ⟨t, if_pos hf, hinv, fun hno => absurd (hf.symm.trans hno) (by decide)⟩
    · have hrec := hrec (Bool.eq_false_iff.mpr hf)
      have hquiet : ∀ {t' : St σ}, stream [e] = [] → t'.received = t.received → t'.freed = false → t'.received = stream (pre ++ [e]) :=
        fun he hr _ => by rw [stream_snoc, he, List.append_nil, hr, hrec]
      unfold step
      rw [if_neg hf]
      cases e with
      | arrive data =>
        refine ⟨_, rfl, hinv.arrive data, fun _ => ?_⟩
        rw [stream_snoc, ← hrec]
        exact congrArg _ (List.append_nil data).symm
      | eof =>
        exact ⟨_, rfl, ⟨hinv.table, hinv.awaited, hinv.kept, hinv.pending, hinv.queue, hinv.taken, hinv.accepted, hinv.vouched⟩,
          hquiet rfl rfl⟩
      | newCipher c =>
        by_cases hc : t.cipherIn.isSome
        · exact ⟨t, congrArg some (if_pos hc), hinv, hquiet rfl rfl⟩
        · exact ⟨_, congrArg some (if_neg hc), hinv.newCipher c, hquiet rfl rfl⟩
      | requestCompression =>
        by_cases hd : t.decompctx.isSome
        · exact ⟨t, congrArg some (if_pos hd), hinv, hquiet rfl rfl⟩
        · refine ⟨_, congrArg some (if_neg hd), ⟨hinv.table, hinv.awaited, hinv.kept, fun _ => ?_, hinv.queue, hinv.taken,
            hinv.accepted, hinv.vouched⟩, hquiet rfl rfl⟩
          exact Option.not_isSome_iff_eq_none.mp hd
      | handleInput raw =>
        rcases loop_spec raw (t.inRaw.length + 1) hinv with ⟨-, t', ht', hinv', hr⟩ | ⟨hno, -⟩
        · exact ⟨t', ht', hinv', hquiet rfl hr⟩
        · exact absurd (hok.resolve_left hf) hno
  · intro pre t e t' ⟨hinv, _⟩ hno hs
    cases e with
    | handleInput raw =>
      have hf : ¬ t.freed = true := fun hf => hno (.inl hf)
      unfold step at hs
      rw [if_neg hf] at hs
      rcases loop_spec raw (t.inRaw.length + 1) hinv with ⟨hfits, -⟩ | ⟨-, hbad⟩
      · exact absurd (.inr hfits) hno
      · exact (hbad t' hs).not_safe _
    | arrive data => exact absurd trivial hno
    | eof => exact absurd trivial hno
    | newCipher c => exact absurd trivial hno
    | requestCompression => exact absurd trivial hno

/-! ## The longest packet -/

/-- A cipher that changes nothing. -/
def plainCipher : CipherAlg Unit := ⟨fun _ data => some (data, ()), fun _ data _ => ⟨data, (), rfl, rfl⟩⟩

/-- A packet of the longest length is accepted, and detect_attack is given eight bytes too
    many. -/
theorem longest_asserts {body : List UInt8} (h : body.length = 262152) (raw : Ctx) :
    Lib.run (step plainCipher) ssh1BppNew [.newCipher (), .arrive ([0, 4, 0, 0] ++ body), .handleInput raw] = none := by
  let t0 : St Unit := { ssh1BppNewCipher ssh1BppNew () with inRaw := [0, 4, 0, 0] ++ body, received := [0, 4, 0, 0] ++ body }
  let t1 : St Unit := { t0 with crState := some 262144, inRaw := body, accepted := [262144], taken := 4 }
  have hbig : biglen 262144 = body.length := h.symm
  have h0 : turn plainCipher t0 raw = some (t1, true) := by
    have hread : bppRead t0 4 = .done [0, 4, 0, 0] { t0 with inRaw := body, taken := 4 } :=
      if_pos (by rw [show t0.inRaw = [0, 4, 0, 0] ++ body from rfl, List.length_append]; exact Nat.le_add_right _ _)
    rw [turn, show t0.crState = none from rfl]
    dsimp only
    rw [hread]
    rfl
  have h1 : turn plainCipher t1 raw = none := by
    have hread : bppRead t1 (biglen 262144) = .done body { t1 with inRaw := [], taken := 4 + biglen 262144 } := by
      rw [bppRead, if_pos (Nat.le_of_eq hbig), hbig]
      show Read.done (body.take body.length) { t1 with inRaw := body.drop body.length, taken := 4 + body.length } = _
      rw [List.take_length, List.drop_length]
    have hattack : detectAttack hashMinentries body (List.replicate 8 0) = none :=
      detectAttack_none (by rw [h]; decide)
    rw [turn, show t1.crState = some 262144 from rfl]
    dsimp only
    rw [hread]
    dsimp only [packet, check]
    rw [show t1.cipherIn = some () from rfl]
    dsimp only
    rw [show t1.crcda = hashMinentries from rfl, show t1.iv = List.replicate 8 0 from rfl, hattack]
    rfl
  have hcall : ssh1BppHandleInput plainCipher t0 raw = none := by
    show loop plainCipher raw (([0, 4, 0, 0] ++ body).length + 1) t0 = none
    have hfuel : ([0, 4, 0, 0] ++ body).length + 1 = body.length + 3 + 1 + 1 := by
      rw [List.length_append]
      exact congrArg (· + 1) (Nat.add_comm 4 body.length)
    rw [hfuel, loop, h0, Option.bind_some]
    dsimp only
    rw [loop, h1]
    rfl
  have hrun : Lib.run (step plainCipher) ssh1BppNew [.newCipher (), .arrive ([0, 4, 0, 0] ++ body), .handleInput raw] =
      (ssh1BppHandleInput plainCipher t0 raw).bind some := rfl
  rw [hrun, hcall]
  rfl

def longestRun : List (Ev Unit) :=
  [.newCipher (), .arrive ([0, 4, 0, 0] ++ List.replicate 262152 0), .handleInput (zeroed (.mk 0 []))]

theorem longest_packet_asserts :
    Lib.run (step plainCipher) ssh1BppNew longestRun = none ∧ ¬ Lib.Always (step plainCipher) (Safe plainCipher) ssh1BppNew longestRun := by
  have hrun : Lib.run (step plainCipher) ssh1BppNew longestRun = none := longest_asserts List.length_replicate _
  refine ⟨hrun, fun h => ?_⟩
  obtain ⟨t, ht, -⟩ := h _ (List.prefix_refl _)
  rw [hrun] at ht
  cases ht

end Putty.Ssh1
