import WebSearch.Base64Text

/-! Text that is encoded is decoded again, and text that can be decoded is encoded again but
for the bits that no byte takes. -/
namespace WebSearch.Base64
open Library

section Groups
variable {a b c d : UInt8} {va vb vc vd : Nat}

theorem byte_eq {n : Nat} {c : UInt8} (same : n = c.toNat) : UInt8.ofNat n = c := by
  rw [same,UInt8.ofNat_toNat]

theorem values (a b c : UInt8) : value (letter (first a.toNat)) = some (first a.toNat) ∧
    value (letter (second a.toNat b.toNat)) = some (second a.toNat b.toNat) ∧
    value (letter (third b.toNat c.toNat)) = some (third b.toNat c.toNat) ∧
    value (letter (fourth c.toNat)) = some (fourth c.toNat) ∧ fourth c.toNat < 64 ∧ third b.toNat c.toNat < 64 := by
  have ha := a.toNat_lt
  have hb := b.toNat_lt
  have hc := c.toNat_lt
  have small : first a.toNat < 64 ∧ second a.toNat b.toNat < 64 ∧ third b.toNat c.toNat < 64 ∧ fourth c.toNat < 64 := by
    unfold first second third fourth
    omega
  obtain ⟨s1,s2,s3,s4⟩ := small
  exact ⟨value_letter s1,value_letter s2,value_letter s3,value_letter s4,s4,s3⟩

/-- The bits of three bytes that are spread out are put together again. -/
theorem gather_spread (a b c : UInt8) : gather (first a.toNat) (second a.toNat b.toNat) (third b.toNat c.toNat) (fourth c.toNat) = [a,b,c] := by
  have ha := a.toNat_lt
  have hb := b.toNat_lt
  have hc := c.toNat_lt
  unfold gather first second third fourth
  rw [byte_eq (c := a) (by omega),byte_eq (c := b) (by omega),byte_eq (c := c) (by omega)]

theorem group_spread (a b c : UInt8) : group (letter (first a.toNat)) (letter (second a.toNat b.toNat))
    (letter (third b.toNat c.toNat)) (letter (fourth c.toNat)) = some [a,b,c] := by
  obtain ⟨v1,v2,v3,v4,-,-⟩ := values a b c
  rw [group,v1,v2,v3,v4,← gather_spread a b c]
  rfl

theorem decoded_encoded (input : Bytes) : decoded (encoded input) = some input := by
  induction input using encoded.induct with
  | case1 a b c rest ih =>
    rw [encoded]
    by_cases alone : rest = []
    · subst alone
      rw [encoded,List.append_nil,decoded,lastGroup,if_neg (letter_other (values a b c).2.2.2.2.1),group_spread]
    · have filled : encoded rest ≠ [] := by
        intro nothing
        have size := encoded_length rest
        have := List.length_pos_of_ne_nil alone
        rw [nothing,List.length_nil] at size
        omega
      rw [List.cons_append,List.cons_append,List.cons_append,List.singleton_append,decoded_cons filled,group_spread,ih]
      rfl
  | case2 a b =>
    obtain ⟨v1,v2,v3,-,-,s3⟩ := values a b 0
    have zero : (0 : UInt8).toNat = 0 := rfl
    rw [zero] at v3 s3
    have spread := gather_spread a b 0
    rw [encoded,decoded,lastGroup,if_pos rfl,if_neg (letter_other s3),three,v1,v2,v3]
    exact congrArg (fun bytes => some (List.take 2 bytes)) spread
  | case3 a =>
    obtain ⟨v1,v2,-,-,-,-⟩ := values a 0 0
    have zero : (0 : UInt8).toNat = 0 := rfl
    rw [zero] at v2
    have spread := gather_spread a 0 0
    rw [encoded,decoded,lastGroup,if_pos rfl,if_pos rfl,two,v1,v2]
    exact congrArg (fun bytes => some (List.take 1 bytes)) spread
  | case4 => rw [encoded,decoded]

end Groups

/-- A letter without the low bits of its value. -/
def cleared (bits : Nat) (c : UInt8) : UInt8 := letter ((value c).getD 0 / 2^bits*2^bits)

/-- The text with the bits that no byte takes set to zero. -/
def canonical : Bytes → Bytes
  | [a,b,c,d] =>
    if d = CHARPAD then (if c = CHARPAD then [a,cleared 4 b,c,d] else [a,b,cleared 2 c,d]) else [a,b,c,d]
  | a :: b :: c :: d :: rest => a :: b :: c :: d :: canonical rest
  | text => text

theorem canonical_length (text : Bytes) : (canonical text).length = text.length := by
  fun_induction canonical text with
  | case1 | case2 | case3 | case5 => rfl
  | case4 a b c d rest other ih => simp only [List.length_cons,ih]

/-- Letters and at most two pads. -/
def Spelled (text : Bytes) : Prop :=
  ∃ letters pads, pads ≤ 2 ∧ text = letters ++ List.replicate pads CHARPAD ∧ ∀ c ∈ letters, c ∈ alphabet

section Texts
variable {a b c d : UInt8} {text out : Bytes}

theorem canonical_cons {rest : Bytes} (more : rest ≠ []) :
    canonical (a :: b :: c :: d :: rest) = a :: b :: c :: d :: canonical rest := by
  obtain ⟨e,rest,rfl⟩ := List.exists_cons_of_ne_nil more
  rw [canonical]
  simp

/-- The other way round: four values that are gathered are spread out again. -/
theorem spread_gather {va vb vc vd : Nat} (ha : va < 64) (hb : vb < 64) (hc : vc < 64) (hd : vd < 64) :
    ∃ x y z : UInt8, gather va vb vc vd = [x,y,z] ∧ first x.toNat = va ∧ second x.toNat y.toNat = vb ∧
    third y.toNat z.toNat = vc ∧ fourth z.toNat = vd ∧ second x.toNat 0 = vb / 2^4*2^4 ∧ third y.toNat 0 = vc / 2^2*2^2 := by
  refine ⟨_,_,_,rfl,?_⟩
  rw [UInt8.toNat_ofNat_of_lt' (show va*4 + vb / 16 < 256 by omega),
    UInt8.toNat_ofNat_of_lt' (show vb % 16*16 + vc / 4 < 256 by omega),
    UInt8.toNat_ofNat_of_lt' (show vc % 4*64 + vd < 256 by omega)]
  unfold first second third fourth
  omega

theorem group_some (got : group a b c d = some out) : encoded out = [a,b,c,d] ∧ ∃ x y z, out = [x,y,z] := by
  simp only [group,Option.bind_eq_bind,Option.bind_eq_some_iff,Option.pure_def,Option.some.injEq] at got
  obtain ⟨va,ha,vb,hb,vc,hc,vd,hd,rfl⟩ := got
  obtain ⟨sa,la⟩ := value_some ha
  obtain ⟨sb,lb⟩ := value_some hb
  obtain ⟨sc,lc⟩ := value_some hc
  obtain ⟨sd,ld⟩ := value_some hd
  obtain ⟨x,y,z,bytes,v1,v2,v3,v4,-,-⟩ := spread_gather sa sb sc sd
  refine ⟨?_,x,y,z,bytes⟩
  rw [bytes,encoded,encoded,v1,v2,v3,v4,la,lb,lc,ld]
  rfl

theorem three_some (got : three a b c = some out) : encoded out = [a,b,cleared 2 c,CHARPAD] := by
  simp only [three,Option.bind_eq_bind,Option.bind_eq_some_iff,Option.pure_def,Option.some.injEq] at got
  obtain ⟨va,ha,vb,hb,vc,hc,rfl⟩ := got
  obtain ⟨sa,la⟩ := value_some ha
  obtain ⟨sb,lb⟩ := value_some hb
  obtain ⟨sc,-⟩ := value_some hc
  obtain ⟨x,y,z,bytes,v1,v2,-,-,-,v3⟩ := spread_gather sa sb sc (show 0 < 64 by decide)
  rw [bytes,cleared,hc,Option.getD_some,← v3]
  change encoded [x,y] = _
  rw [encoded,v1,v2,la,lb]

theorem two_some (got : two a b = some out) : encoded out = [a,cleared 4 b,CHARPAD,CHARPAD] := by
  simp only [two,Option.bind_eq_bind,Option.bind_eq_some_iff,Option.pure_def,Option.some.injEq] at got
  obtain ⟨va,ha,vb,hb,rfl⟩ := got
  obtain ⟨sa,la⟩ := value_some ha
  obtain ⟨sb,-⟩ := value_some hb
  obtain ⟨x,y,z,bytes,v1,-,-,-,v2,-⟩ := spread_gather sa sb (show 0 < 64 by decide) (show 0 < 64 by decide)
  rw [bytes,cleared,hb,Option.getD_some,← v2]
  change encoded [x] = _
  rw [encoded,v1,la]

/-- What has been decoded: nothing, a last group, or a group and the rest. -/
theorem decoded_some (got : decoded text = some out) : (text = [] ∧ out = []) ∨
    (∃ a b c d, text = [a,b,c,d] ∧ lastGroup a b c d = some out) ∨
    ∃ a b c d rest bytes more, rest ≠ [] ∧ text = a :: b :: c :: d :: rest ∧ group a b c d = some bytes ∧
      decoded rest = some more ∧ out = bytes ++ more := by
  match text with
  | [] =>
    rw [decoded,Option.some.injEq] at got
    exact .inl ⟨rfl,got.symm⟩
  | [_] | [_,_] | [_,_,_] =>
    rw [decoded_length rfl (by simp)] at got
    contradiction
  | a :: b :: c :: d :: rest =>
    by_cases alone : rest = []
    · subst alone
      rw [decoded] at got
      exact .inr (.inl ⟨a,b,c,d,rfl,got⟩)
    · rw [decoded_cons alone,Option.bind_eq_some_iff] at got
      obtain ⟨bytes,first,got⟩ := got
      obtain ⟨more,others,rfl⟩ := Option.map_eq_some_iff.mp got
      exact .inr (.inr ⟨a,b,c,d,rest,bytes,more,alone,rfl,first,others,rfl⟩)

theorem encoded_decoded (got : decoded text = some out) : encoded out = canonical text := by
  induction size : text.length using Nat.strongRecOn generalizing text out with
  | ind n ih =>
    obtain ⟨rfl,rfl⟩ | ⟨a,b,c,d,rfl,last⟩ | ⟨a,b,c,d,rest,bytes,more,filled,rfl,first,others,rfl⟩ := decoded_some got
    · rw [encoded]
      rfl
    · unfold lastGroup at last
      rw [canonical]
      split at last
      · rename_i pad
        subst pad
        split at last
        · rename_i pads
          subst pads
          rw [if_pos rfl,if_pos rfl]
          exact two_some last
        · rename_i pads
          rw [if_pos rfl,if_neg pads]
          exact three_some last
      · rename_i pad
        rw [if_neg pad]
        exact (group_some last).1
    · obtain ⟨back,x,y,z,rfl⟩ := group_some first
      have rest_back := ih rest.length (by rw [← size]; simp only [List.length_cons]; omega) others rfl
      rw [canonical_cons filled,← rest_back]
      rw [encoded,encoded,List.append_nil] at back
      change encoded (x :: y :: z :: more) = _
      rw [encoded,back]
      rfl

theorem mem_alphabet {c : UInt8} : c ∈ alphabet ↔ ∃ v, value c = some v := by
  rw [← Option.isSome_iff_exists,value,List.isSome_idxOf?]

theorem spelled_cons {rest : Bytes} (more : 2 ≤ rest.length) : Spelled (a :: rest) ↔ a ∈ alphabet ∧ Spelled rest := by
  constructor
  · intro spelled
    obtain ⟨letters,pads,few,cut,known⟩ := spelled
    cases letters with
    | nil =>
      have size := congrArg List.length cut
      rw [List.nil_append,List.length_replicate,List.length_cons] at size
      omega
    | cons e letters =>
      obtain ⟨here,others⟩ := List.forall_mem_cons.mp known
      obtain ⟨rfl,rest_eq⟩ := List.cons_eq_cons.mp cut
      exact ⟨here,letters,pads,few,rest_eq,others⟩
  · intro parts
    obtain ⟨here,letters,pads,few,rfl,known⟩ := parts
    exact ⟨a :: letters,pads,few,rfl,List.forall_mem_cons.mpr ⟨here,known⟩⟩

/-- The last two places. -/
theorem spelled_two : Spelled [c,d] ↔ (c ∈ alphabet ∧ d ∈ alphabet) ∨ (c ∈ alphabet ∧ d = CHARPAD) ∨ (c = CHARPAD ∧ d = CHARPAD) := by
  constructor
  · intro spelled
    obtain ⟨letters,pads,few,cut,known⟩ := spelled
    match letters with
    | [] =>
      obtain rfl : pads = 2 := by
        have size := congrArg List.length cut
        simpa using size.symm
      obtain ⟨rfl,rest⟩ := List.cons_eq_cons.mp cut
      exact .inr (.inr ⟨rfl,(List.cons_eq_cons.mp rest).1⟩)
    | [e] =>
      obtain rfl : pads = 1 := by
        have size := congrArg List.length cut
        simp at size
        omega
      obtain ⟨rfl,rest⟩ := List.cons_eq_cons.mp cut
      exact .inr (.inl ⟨known _ List.mem_cons_self,(List.cons_eq_cons.mp rest).1⟩)
    | e :: f :: letters =>
      obtain ⟨rfl,rest⟩ := List.cons_eq_cons.mp cut
      obtain ⟨rfl,-⟩ := List.cons_eq_cons.mp rest
      exact .inl ⟨known _ (by simp),known _ (by simp)⟩
  · rintro (⟨hc,hd⟩ | ⟨hc,rfl⟩ | ⟨rfl,rfl⟩)
    · exact ⟨[c,d],0,by decide,rfl,by simp [hc,hd]⟩
    · exact ⟨[c],1,by decide,rfl,by simp [hc]⟩
    · exact ⟨[],2,le_rfl,rfl,by simp⟩

theorem pad_unknown : CHARPAD ∉ alphabet := by decide +kernel

theorem two_isSome : (two a b).isSome ↔ a ∈ alphabet ∧ b ∈ alphabet := by
  rw [mem_alphabet,mem_alphabet,two]
  cases value a <;> cases value b <;> simp

theorem three_isSome : (three a b c).isSome ↔ a ∈ alphabet ∧ b ∈ alphabet ∧ c ∈ alphabet := by
  rw [mem_alphabet,mem_alphabet,mem_alphabet,three]
  cases value a <;> cases value b <;> cases value c <;> simp

theorem group_isSome : (group a b c d).isSome ↔ a ∈ alphabet ∧ b ∈ alphabet ∧ c ∈ alphabet ∧ d ∈ alphabet := by
  rw [mem_alphabet,mem_alphabet,mem_alphabet,mem_alphabet,group]
  cases value a <;> cases value b <;> cases value c <;> cases value d <;> simp

theorem lastGroup_isSome : (lastGroup a b c d).isSome ↔ Spelled [a,b,c,d] := by
  have unknown := pad_unknown
  rw [spelled_cons (by simp),spelled_cons (by simp),spelled_two,lastGroup]
  by_cases pad : d = CHARPAD
  · subst pad
    rw [if_pos rfl]
    by_cases pads : c = CHARPAD
    · subst pads
      rw [if_pos rfl,two_isSome]
      tauto
    · rw [if_neg pads,three_isSome]
      tauto
  · rw [if_neg pad,group_isSome]
    tauto

theorem decoded_isSome {n : Nat} (size : text.length = 4*n) : (decoded text).isSome ↔ Spelled text := by
  induction n generalizing text with
  | zero =>
    obtain rfl := List.eq_nil_of_length_eq_zero size
    exact iff_of_true rfl ⟨[],0,by decide,rfl,by simp⟩
  | succ n ih =>
    obtain ⟨a,b,c,d,rest,rfl,left⟩ := exists_group size
    cases n with
    | zero =>
      obtain rfl := List.eq_nil_of_length_eq_zero left
      exact lastGroup_isSome
    | succ n =>
      have filled : rest ≠ [] := by
        rintro rfl
        simp at left
      have whole := group_isSome (a := a) (b := b) (c := c) (d := d)
      rw [decoded_cons filled,spelled_cons (by simp),spelled_cons (by simp),spelled_cons (by simp; omega),
        spelled_cons (by omega),← ih left]
      generalize group a b c d = bytes at whole ⊢
      cases bytes with
      | none =>
        simp only [Option.isSome_none,Bool.false_eq_true,false_iff] at whole
        simp only [Option.bind_none,Option.isSome_none,Bool.false_eq_true,false_iff]
        tauto
      | some bytes =>
        simp only [Option.isSome_some,true_iff] at whole
        simp only [Option.bind_some,Option.isSome_map]
        tauto

end Texts

/-- What is encoded and decoded comes back, and no byte outside the buffers is touched. The
encoding fails when an `int` cannot count the letters. -/
theorem encode_decode (input : Bytes) (short : input.length < 2^31) :
    ∃ text, text.length = (input.length + 2) / 3*4 ∧
    base64Encode input = some (if text.length < 2^31 then some text else none) ∧
    (text.length < 2^31 → base64Decode text = some (some input)) := by
  refine ⟨encoded input,encoded_length input,base64Encode_eq short,fun fits => ?_⟩
  rw [base64Decode_eq fits,decoded_encoded]

theorem encode_decode_hello : ∃ text, base64Encode "hello world".toUTF8.toList = some (some text) ∧
    base64Decode text = some (some "hello world".toUTF8.toList) := by
  have size : "hello world".toUTF8.toList.length = 11 := by decide +kernel
  obtain ⟨text,length,encoded,back⟩ := encode_decode "hello world".toUTF8.toList (by rw [size]; decide)
  have fits : text.length < 2^31 := by
    rw [length,size]
    decide
  rw [if_pos fits] at encoded
  exact ⟨text,encoded,back fits⟩

/-- Exactly the letters with at most two pads are decoded, and their bytes are encoded as the
same letters, but for the bits that no byte takes. -/
theorem decode_encode (text : Bytes) (short : text.length < 2^31) : ∃ result, base64Decode text = some result ∧
    (result.isSome ↔ 4 ∣ text.length ∧ Spelled text) ∧
    ∀ out, result = some out → base64Encode out = some (some (canonical text)) ∧ (canonical text).length = text.length := by
  refine ⟨decoded text,base64Decode_eq short,?_,fun out got => ?_⟩
  · by_cases whole : 4 ∣ text.length
    · obtain ⟨n,size⟩ := whole
      rw [decoded_isSome size]
      exact (and_iff_right ⟨n,size⟩).symm
    · rw [decoded_length rfl (by omega)]
      exact iff_of_false Bool.false_ne_true fun both => whole both.1
  · have length := canonical_length text
    have same := encoded_decoded got
    have size := encoded_length out
    rw [same,length] at size
    rw [base64Encode_eq (by omega),same,length,if_pos short]
    exact ⟨rfl,rfl⟩

theorem decode_encode_spare : base64Encode "A".toUTF8.toList = some (some (canonical "QR==".toUTF8.toList)) := by
  have size : "QR==".toUTF8.toList.length = 4 := by decide +kernel
  obtain ⟨result,got,-,back⟩ := decode_encode "QR==".toUTF8.toList (by rw [size]; decide)
  have here : base64Decode "QR==".toUTF8.toList = some (some "A".toUTF8.toList) := by decide +kernel
  exact (back _ (Option.some.inj (got.symm.trans here))).1

end WebSearch.Base64
