import WebSearch.Base64

/-! What `base/base64.cc` makes of three bytes and of four letters, and that the loops over
the buffers do it. -/
namespace WebSearch.Base64
open Library

section Letters

theorem value_letter {v : Nat} (small : v < 64) : value (letter v) = some v := by
  have all : ∀ v < 64, value (letter v) = some v := by decide +kernel
  exact all v small

theorem value_some {c : UInt8} {v : Nat} (known : value c = some v) : v < 64 ∧ letter v = c := by
  have all : ∀ n < 256, ∀ v ∈ value (UInt8.ofNat n), v < 64 ∧ letter v = UInt8.ofNat n := by decide +kernel
  have here := all c.toNat c.toNat_lt v
  rw [UInt8.ofNat_toNat] at here
  exact here known

theorem value_pad : value CHARPAD = none := by decide +kernel

theorem letter_other {v : Nat} (small : v < 64) : letter v ≠ CHARPAD := by
  intro pad
  have known := value_letter small
  rw [pad,value_pad] at known
  contradiction

end Letters

/-! Groups. -/

def first (a : Nat) : Nat := a / 4
def second (a b : Nat) : Nat := a % 4*16 + b / 16
def third (b c : Nat) : Nat := b % 16*4 + c / 64
def fourth (c : Nat) : Nat := c % 64

def encoded : Bytes → Bytes
  | a :: b :: c :: rest =>
    [letter (first a.toNat),letter (second a.toNat b.toNat),letter (third b.toNat c.toNat),letter (fourth c.toNat)] ++ encoded rest
  | [a,b] => [letter (first a.toNat),letter (second a.toNat b.toNat),letter (third b.toNat 0),CHARPAD]
  | [a] => [letter (first a.toNat),letter (second a.toNat 0),CHARPAD,CHARPAD]
  | [] => []

/-- The three bytes of four values. -/
def gather (va vb vc vd : Nat) : Bytes :=
  [UInt8.ofNat (va*4 + vb / 16),UInt8.ofNat (vb % 16*16 + vc / 4),UInt8.ofNat (vc % 4*64 + vd)]

def group (a b c d : UInt8) : Option Bytes := do
  let va ← value a
  let vb ← value b
  let vc ← value c
  let vd ← value d
  return gather va vb vc vd

def three (a b c : UInt8) : Option Bytes := do
  let va ← value a
  let vb ← value b
  let vc ← value c
  return (gather va vb vc 0).take 2

def two (a b : UInt8) : Option Bytes := do
  let va ← value a
  let vb ← value b
  return (gather va vb 0 0).take 1

def lastGroup (a b c d : UInt8) : Option Bytes :=
  if d = CHARPAD then (if c = CHARPAD then two a b else three a b c) else group a b c d

def decoded : Bytes → Option Bytes
  | [] => some []
  | [a,b,c,d] => lastGroup a b c d
  | a :: b :: c :: d :: rest => do
    let bytes ← group a b c d
    let more ← decoded rest
    return bytes ++ more
  | _ => none

section Bits

/-- Four values in the places that the tables give them. -/
def packed (va vb vc vd : Nat) : Nat := 2^22*(vc % 4) + (2^16*vd + (2^12*(vb % 16) + (2^8*(vc / 4) + (2^2*va + vb / 16))))

variable {va vb vc vd : Nat} {a b c d : UInt8}

theorem or_eq_packed (ha : va < 64) (hb : vb < 64) (hc : vc < 64) (hd : vd < 64) : va <<< 2 |||
    ((vb &&& 0x0F) <<< 12 ||| vb >>> 4) ||| ((vc &&& 0x03) <<< 22 ||| (vc >>> 2) <<< 8) ||| vd <<< 16 = packed va vb vc vd := by
  have low (n : Nat) : n &&& 0x0F = n % 16 := Nat.and_two_pow_sub_one_eq_mod n 4
  have lower (n : Nat) : n &&& 0x03 = n % 4 := Nat.and_two_pow_sub_one_eq_mod n 2
  rw [low,lower,packed,Nat.two_pow_add_eq_or_of_lt (by omega),Nat.two_pow_add_eq_or_of_lt (by omega),
    Nat.two_pow_add_eq_or_of_lt (by omega),Nat.two_pow_add_eq_or_of_lt (by omega),Nat.two_pow_add_eq_or_of_lt (by omega)]
  rw [show 16 = 2^4 from rfl,show 4 = 2^2 from rfl]
  simp only [Nat.shiftLeft_eq,Nat.shiftRight_eq_div_pow,Nat.mul_comm _ (2^_)]
  ac_rfl

theorem packed_small (ha : va < 64) (hb : vb < 64) (hc : vc < 64) (hd : vd < 64) : packed va vb vc vd < BADCHAR := by
  unfold packed BADCHAR
  omega

theorem toBytes_cons {n : Nat} (width x rest : Nat) (cut : n = x + 256*rest) (small : x < 256) :
    toBytes (width + 1) n = UInt8.ofNat x :: toBytes width rest := by
  have low : UInt8.ofNat n = UInt8.ofNat x := by
    apply UInt8.toNat_inj.mp
    rw [UInt8.toNat_ofNat',UInt8.toNat_ofNat']
    omega
  rw [toBytes,low,show n / 256 = rest by omega]

/-- Three bytes and one that the next store is put over. -/
theorem packed_bytes (ha : va < 64) (hb : vb < 64) (hc : vc < 64) (hd : vd < 64) :
    toBytes 4 (packed va vb vc vd) = gather va vb vc vd ++ [0] := by
  have cut : packed va vb vc vd = va*4 + vb / 16 + 256*(vb % 16*16 + vc / 4 + 256*(vc % 4*64 + vd)) := by
    unfold packed
    omega
  rw [toBytes_cons 3 _ _ cut (by omega),toBytes_cons 2 _ _ rfl (by omega),
    toBytes_cons (n := vc % 4*64 + vd) 1 (vc % 4*64 + vd) 0 (by omega) (by omega)]
  rfl

theorem table_some {c : UInt8} {v : Nat} (known : value c = some v) (place : Nat → Nat) : table place c.toNat = place v := by
  rw [table,UInt8.ofNat_toNat,known]

theorem table_none {c : UInt8} (unknown : value c = none) (place : Nat → Nat) : table place c.toNat = BADCHAR := by
  rw [table,UInt8.ofNat_toNat,unknown]

/-- The bytes of a word that is loaded. -/
theorem word_bytes (a b c d : UInt8) : ofBytes [a,b,c,d] &&& 0xff = a.toNat ∧ ofBytes [a,b,c,d] >>> 8 &&& 0xff = b.toNat ∧
    ofBytes [a,b,c,d] >>> 16 &&& 0xff = c.toNat ∧ ofBytes [a,b,c,d] >>> 24 &&& 0xff = d.toNat := by
  have low (n : Nat) : n &&& 0xff = n % 2^8 := Nat.and_two_pow_sub_one_eq_mod n 8
  have ha := a.toNat_lt
  have hb := b.toNat_lt
  have hc := c.toNat_lt
  have hd := d.toNat_lt
  simp only [low,Nat.shiftRight_eq_div_pow,ofBytes]
  refine ⟨?_,?_,?_,?_⟩ <;> omega

/-- A word is the bad one, or has these bytes first. -/
def Means (x width : Nat) : Option Bytes → Prop
  | none => BADCHAR ≤ x
  | some bytes => x < BADCHAR ∧ bytes.length = width ∧ (toBytes 4 x).take width = bytes

theorem joined_means (a b c d : UInt8) : Means (joined (ofBytes [a,b,c,d])) 3 (group a b c d) := by
  obtain ⟨y0,y1,y2,y3⟩ := word_bytes a b c d
  rw [joined,y0,y1,y2,y3,group,d0,d1,d2,d3]
  cases ha : value a with
  | none =>
    rw [table_none ha]
    exact (Nat.left_le_or.trans Nat.left_le_or).trans Nat.left_le_or
  | some va =>
    cases hb : value b with
    | none =>
      rw [table_none hb]
      exact (Nat.right_le_or.trans Nat.left_le_or).trans Nat.left_le_or
    | some vb =>
      cases hc : value c with
      | none =>
        rw [table_none hc]
        exact Nat.right_le_or.trans Nat.left_le_or
      | some vc =>
        cases hd : value d with
        | none =>
          rw [table_none hd]
          exact Nat.right_le_or
        | some vd =>
          have la := (value_some ha).1
          have lb := (value_some hb).1
          have lc := (value_some hc).1
          have ld := (value_some hd).1
          rw [table_some ha,table_some hb,table_some hc,table_some hd,or_eq_packed la lb lc ld]
          refine ⟨packed_small la lb lc ld,rfl,?_⟩
          rw [packed_bytes la lb lc ld]
          rfl

theorem joinedTwo_means (a b c d : UInt8) : Means (joinedTwo (ofBytes [a,b,c,d])) 1 (two a b) := by
  obtain ⟨y0,y1,-,-⟩ := word_bytes a b c d
  rw [joinedTwo,y0,y1,two,d0,d1]
  cases ha : value a with
  | none =>
    rw [table_none ha]
    exact Nat.left_le_or
  | some va =>
    cases hb : value b with
    | none =>
      rw [table_none hb]
      exact Nat.right_le_or
    | some vb =>
      have la := (value_some ha).1
      have lb := (value_some hb).1
      have sum := or_eq_packed la lb (show 0 < 64 by decide) (show 0 < 64 by decide)
      simp only [Nat.zero_and,Nat.zero_shiftLeft,Nat.zero_shiftRight,Nat.or_zero] at sum
      rw [table_some ha,table_some hb,sum]
      refine ⟨packed_small la lb (by decide) (by decide),rfl,?_⟩
      rw [packed_bytes la lb (by decide) (by decide)]
      rfl

theorem joinedThree_means (a b c d : UInt8) : Means (joinedThree (ofBytes [a,b,c,d])) 2 (three a b c) := by
  obtain ⟨y0,y1,y2,-⟩ := word_bytes a b c d
  rw [joinedThree,y0,y1,y2,three,d0,d1,d2]
  cases ha : value a with
  | none =>
    rw [table_none ha]
    exact Nat.left_le_or.trans Nat.left_le_or
  | some va =>
    cases hb : value b with
    | none =>
      rw [table_none hb]
      exact Nat.right_le_or.trans Nat.left_le_or
    | some vb =>
      cases hc : value c with
      | none =>
        rw [table_none hc]
        exact Nat.right_le_or
      | some vc =>
        have la := (value_some ha).1
        have lb := (value_some hb).1
        have lc := (value_some hc).1
        have sum := or_eq_packed la lb lc (show 0 < 64 by decide)
        simp only [Nat.zero_shiftLeft,Nat.or_zero] at sum
        rw [table_some ha,table_some hb,table_some hc,sum]
        refine ⟨packed_small la lb lc (by decide),rfl,?_⟩
        rw [packed_bytes la lb lc (by decide)]
        rfl

end Bits

section Buffers

theorem load_at {src front : Bytes} {a b c d : UInt8} {rest : Bytes} (cut : src = front ++ a :: b :: c :: d :: rest) {pos : Nat}
    (here : front.length = pos) : load src pos = some (ofBytes [a,b,c,d]) := by
  subst here
  rw [load,cut,List.drop_left,if_pos]
  · rfl
  · simp

theorem store_at {dest : Bytes} {pos : Nat} (bytes : Bytes) (room : pos + bytes.length ≤ dest.length) :
    ∃ dest', store dest pos bytes = some dest' ∧ dest'.length = dest.length ∧
    ∀ k ≤ bytes.length, dest'.take (pos + k) = dest.take pos ++ bytes.take k := by
  have before : (dest.take pos).length = pos := List.length_take_of_le (by omega)
  refine ⟨_,if_pos room,?_,fun k few => ?_⟩
  · rw [List.length_append,List.length_append,List.length_drop,before]
    omega
  · rw [List.append_assoc,List.take_append,before,List.take_of_length_le (by omega),Nat.add_sub_cancel_left,
      List.take_append_of_le_length few]

end Buffers

/-- From `start` on, the bytes are put into the buffer, or it is found that there are none. -/
def Decodes (dest : Bytes) (start : Nat) (out : Option Bytes) (result : Option (Int × Bytes)) : Prop :=
  ∃ r dest', result = some (r,dest') ∧
    match out with
    | none => r = -1
    | some out => r = (start + out.length : Nat) ∧ dest'.length = dest.length ∧
      dest'.take (start + out.length) = dest.take start ++ out

def leftover (c d : UInt8) : Nat := if d = CHARPAD then (if c = CHARPAD then 2 else 3) else 0

section Decoding
variable {src front dest : Bytes} {a b c d : UInt8}

/-- A word that is stored, whether it is good or not. -/
theorem store_means {x width pos : Nat} {out : Option Bytes} (means : Means x width out) (few : width ≤ 3)
    (room : pos + 3 ≤ dest.length) : Decodes dest pos out ((store dest pos ((toBytes 4 x).take width)).bind fun dest =>
      if x ≥ BADCHAR then some (-1,dest) else some ((pos + width : Nat),dest)) := by
  have size : ((toBytes 4 x).take width).length = width := by
    rw [List.length_take,length_toBytes]
    omega
  have enough : pos + ((toBytes 4 x).take width).length ≤ dest.length := by
    rw [size]
    omega
  obtain ⟨dest',stored,same,written⟩ := store_at _ enough
  rw [stored]
  cases out with
  | none => exact ⟨-1,dest',if_pos means,rfl⟩
  | some bytes =>
    obtain ⟨good,length,start⟩ := means
    refine ⟨_,dest',if_neg (Nat.not_le_of_lt good),?_,same,?_⟩
    · rw [length]
    · rw [length,written width size.ge,List.take_take,Nat.min_self,start]

/-- A good word is stored. -/
theorem checked_means {x width pos : Nat} {out : Option Bytes} (means : Means x width out) (few : width ≤ 3)
    (room : pos + 3 ≤ dest.length) : Decodes dest pos out (if x ≥ BADCHAR then some (-1,dest) else
      (store dest pos ((toBytes 4 x).take width)).bind fun dest => some ((pos + width : Nat),dest)) := by
  cases out with
  | none => exact ⟨-1,dest,if_pos means,rfl⟩
  | some bytes =>
    obtain ⟨r,dest',stored,rest⟩ := store_means means few room
    refine ⟨r,dest',?_,rest⟩
    have good := Nat.not_le_of_lt means.1
    rw [if_neg good]
    simpa only [if_neg good] using stored

theorem decodeRest_eq (cut : src = front ++ [a,b,c,d]) {chunks : Nat} (here : front.length = 4*chunks)
    (room : 3*chunks + 3 ≤ dest.length) :
    Decodes dest (3*chunks) (lastGroup a b c d) (decodeRest src (leftover c d) chunks dest) := by
  unfold decodeRest
  rw [load_at cut here,leftover,lastGroup]
  by_cases pad : d = CHARPAD
  · rw [if_pos pad,if_pos pad]
    by_cases pads : c = CHARPAD
    · rw [if_pos pads,if_pos pads]
      exact store_means (joinedTwo_means a b c d) (by decide) room
    · rw [if_neg pads,if_neg pads]
      exact store_means (joinedThree_means a b c d) (by decide) room
  · rw [if_neg pad,if_neg pad]
    have checked := checked_means (joined_means a b c d) (by decide) room
    rw [show 3*chunks + 3 = (chunks + 1)*3 by omega] at checked
    exact checked

theorem decoded_cons {rest : Bytes} (more : rest ≠ []) :
    decoded (a :: b :: c :: d :: rest) = (group a b c d).bind fun bytes => (decoded rest).map fun more => bytes ++ more := by
  obtain ⟨e,rest,rfl⟩ := List.exists_cons_of_ne_nil more
  rw [decoded]
  · cases group a b c d with
    | none => rfl
    | some bytes => cases decoded (e :: rest) <;> rfl
  · simp

theorem exists_group {rest : Bytes} {n : Nat} (size : rest.length = 4*(n + 1)) :
    ∃ a b c d back, rest = a :: b :: c :: d :: back ∧ back.length = 4*n := by
  match rest with
  | a :: b :: c :: d :: back => exact ⟨a,b,c,d,back,rfl,by simp only [List.length_cons] at size; omega⟩
  | [] | [_] | [_,_] | [_,_,_] =>
    simp at size
    try omega

/-- The loop and the last group. -/
theorem decodeFrom_eq {left : Nat} (is_left : ∀ before a b c d, src = before ++ [a,b,c,d] → left = leftover c d) (n : Nat)
    {rest : Bytes} (cut : src = front ++ rest) {i : Nat} (here : front.length = 4*i) (more : rest.length = 4*(n + 1))
    (room : 3*(i + n + 1) + 1 ≤ dest.length) :
    Decodes dest (3*i) (decoded rest) ((decodeLoop src n i dest).bind fun (good,dest) =>
      if good then decodeRest src left (i + n) dest else some (-1,dest)) := by
  induction n generalizing front rest i dest with
  | zero =>
    obtain ⟨a,b,c,d,back,rfl,nothing⟩ := exists_group more
    obtain rfl := List.eq_nil_of_length_eq_zero nothing
    rw [is_left _ _ _ _ _ cut]
    exact decodeRest_eq cut here (by omega)
  | succ n ih =>
    obtain ⟨a,b,c,d,back,rfl,size⟩ := exists_group more
    have filled : back ≠ [] := by
      rintro rfl
      simp at size
    rw [decoded_cons filled,decodeLoop,load_at cut here]
    have means := joined_means a b c d
    cases whole : group a b c d with
    | none =>
      rw [whole] at means
      refine ⟨-1,dest,?_,rfl⟩
      simp only [Option.bind_eq_bind,Option.bind_some,if_pos (show joined (ofBytes [a,b,c,d]) ≥ BADCHAR from means)]
      rfl
    | some bytes =>
      rw [whole] at means
      obtain ⟨good,length,start⟩ := means
      have enough : 3*i + (toBytes 4 (joined (ofBytes [a,b,c,d]))).length ≤ dest.length := by
        rw [length_toBytes]
        omega
      obtain ⟨dest',stored,same,written⟩ := store_at _ enough
      have taken := written 3 (by rw [length_toBytes]; decide)
      have cut' : src = (front ++ [a,b,c,d]) ++ back := by rw [cut,List.append_assoc]; rfl
      have here' : (front ++ [a,b,c,d]).length = 4*(i + 1) := by rw [List.length_append,here]; rfl
      have room' : 3*(i + 1 + n + 1) + 1 ≤ dest'.length := by omega
      have next := ih cut' here' size room'
      rw [start] at taken
      rw [show i + 1 + n = i + (n + 1) by omega] at next
      simp only [Option.bind_eq_bind,Option.bind_some,if_neg (Nat.not_le_of_lt good),stored]
      obtain ⟨r,dest'',ran,done⟩ := next
      refine ⟨r,dest'',ran,?_⟩
      cases back_eq : decoded back with
      | none =>
        rw [back_eq] at done
        exact done
      | some out =>
        rw [back_eq] at done
        obtain ⟨result,same',written'⟩ := done
        refine ⟨?_,same'.trans same,?_⟩
        · rw [result,List.length_append,length]
          push_cast
          omega
        · rw [List.length_append,length,← List.append_assoc,← taken,show 3*i + 3 = 3*(i + 1) by omega,← written']
          congr 1
          omega

/-- Which bytes are read for the pads. -/
theorem unpadded_eq {before : Bytes} (cut : src = before ++ [a,b,c,d]) (groups : before.length % 4 = 0) :
    ∃ len, unpadded src src.length = some len ∧ len % 4 = leftover c d ∧
    (if len % 4 = 0 then len / 4 - 1 else len / 4) = before.length / 4 := by
  have size : src.length = before.length + 4 := by rw [cut]; simp
  have last : src[src.length - 1]? = some d := by
    rw [size,cut]
    simp
  have beside : src[src.length - 2]? = some c := by
    rw [size,cut]
    simp
  rw [unpadded,last,beside,leftover]
  by_cases pad : d = CHARPAD
  · by_cases pads : c = CHARPAD
    · refine ⟨src.length - 2,by simp [pad,pads],?_,?_⟩
      · rw [if_pos pad,if_pos pads]
        omega
      · rw [if_neg (by omega)]
        omega
    · refine ⟨src.length - 1,by simp [pad,pads],?_,?_⟩
      · rw [if_pos pad,if_neg pads]
        omega
      · rw [if_neg (by omega)]
        omega
  · refine ⟨src.length,by simp [pad],?_,?_⟩
    · rw [if_neg pad]
      omega
    · rw [if_pos (by omega)]
      omega

theorem decoded_length {n : Nat} {text : Bytes} (odd : text.length = n) (some : n % 4 ≠ 0) : decoded text = none := by
  induction n using Nat.strongRecOn generalizing text with
  | ind n ih =>
    match text with
    | [] => exact absurd (odd ▸ rfl) some
    | [_] | [_,_] | [_,_,_] => rfl
    | a :: b :: c :: d :: rest =>
      simp only [List.length_cons] at odd
      have filled : rest ≠ [] := by
        rintro rfl
        exact some (odd ▸ rfl)
      rw [decoded_cons filled,ih rest.length (by omega) rfl (by omega)]
      cases group a b c d <;> rfl

theorem resize_nil (n : Nat) : (resize [] n).length = n := by simp [resize]

theorem resize_take {temp : Bytes} {n : Nat} (fits : n ≤ temp.length) : resize temp n = temp.take n := by
  rw [resize,Nat.sub_eq_zero_of_le fits,List.replicate_zero,List.append_nil]

theorem exists_last {text : Bytes} {n : Nat} (size : text.length = 4*(n + 1)) :
    ∃ before a b c d, text = before ++ [a,b,c,d] ∧ before.length = 4*n := by
  have back : (text.drop (4*n)).length = 4*(0 + 1) := by
    rw [List.length_drop,size]
    omega
  obtain ⟨a,b,c,d,nothing,cut,none⟩ := exists_group back
  obtain rfl := List.eq_nil_of_length_eq_zero none
  refine ⟨text.take (4*n),a,b,c,d,?_,List.length_take_of_le (by omega)⟩
  rw [← cut,List.take_append_drop]

theorem base64Decode_eq {input : Bytes} (short : input.length < 2^31) : base64Decode input = some (decoded input) := by
  rw [base64Decode,toInt32_small short,modpB64Decode]
  by_cases odd : input.length % 4 = 0
  · obtain ⟨n,size⟩ := Nat.dvd_of_mod_eq_zero odd
    cases n with
    | zero =>
      obtain rfl := List.eq_nil_of_length_eq_zero size
      rfl
    | succ n =>
      obtain ⟨before,a,b,c,d,cut,length⟩ := exists_last size
      obtain ⟨len,read,left,chunks⟩ := unpadded_eq cut (by omega)
      have is_left (front : Bytes) (e f g h : UInt8) (other : input = front ++ [e,f,g,h]) : len % 4 = leftover g h := by
        have same := (List.append_inj' (cut.symm.trans other) rfl).2
        rw [List.cons.injEq,List.cons.injEq,List.cons.injEq,List.cons.injEq] at same
        obtain ⟨-,-,rfl,rfl,-⟩ := same
        exact left
      have room : 3*(0 + n + 1) + 1 ≤ (resize [] (modpB64DecodeLen input.length)).length := by
        rw [resize_nil,modpB64DecodeLen]
        omega
      obtain ⟨r,dest,ran,done⟩ := decodeFrom_eq is_left n (List.nil_append _).symm rfl size room
      rw [if_neg (by omega),if_neg (by omega),Int.toNat_natCast,read]
      have groups : (if len % 4 = 0 then len / 4 - 1 else len / 4) = 0 + n := by omega
      rw [Nat.zero_add] at groups ran
      simp only [Option.bind_eq_bind,Option.bind_some,groups]
      rw [ran]
      cases back : decoded input with
      | none =>
        rw [back] at done
        subst done
        rfl
      | some out =>
        rw [back] at done
        obtain ⟨rfl,-,written⟩ := done
        rw [Nat.mul_zero,Nat.zero_add,List.take_zero,List.nil_append] at written
        have fits : out.length ≤ dest.length := by
          rw [← written,List.length_take]
          exact Nat.min_le_right _ _
        simp only [Option.bind_some,Nat.mul_zero,Nat.zero_add,Int.toNat_natCast,resize_take fits,written]
        rw [if_neg (by omega)]
        rfl
  · rw [if_neg (by omega),if_pos (by omega),decoded_length rfl odd]
    rfl

end Decoding

section Encoding

theorem e0_first (a : UInt8) : e0 a.toNat = letter (first a.toNat) := by
  rw [e0,Nat.shiftRight_eq_div_pow]
  rfl

/-- A letter of two parts that do not overlap. -/
theorem e1_or {i high low : Nat} (fits : low < 2^i) (small : high*2^i + low < 64) : e1 (high <<< i ||| low) = letter (high*2^i + low) := by
  have mask : (high*2^i + low) &&& 0x3F = (high*2^i + low) % 64 := Nat.and_two_pow_sub_one_eq_mod _ 6
  rw [e1,Nat.shiftLeft_eq,Nat.mul_comm,← Nat.two_pow_add_eq_or_of_lt fits,Nat.mul_comm,mask,Nat.mod_eq_of_lt small]

theorem e1_second (a b : UInt8) : e1 ((a.toNat &&& 0x03) <<< 4 ||| (b.toNat >>> 4 &&& 0x0F)) = letter (second a.toNat b.toNat) := by
  have ha := a.toNat_lt
  have hb := b.toNat_lt
  have high : a.toNat &&& 0x03 = a.toNat % 4 := Nat.and_two_pow_sub_one_eq_mod _ 2
  have low : b.toNat >>> 4 &&& 0x0F = b.toNat / 16 := by
    rw [Nat.shiftRight_eq_div_pow]
    exact (Nat.and_two_pow_sub_one_eq_mod _ 4).trans (Nat.mod_eq_of_lt (by omega))
  rw [high,low]
  exact e1_or (by omega) (by omega)

theorem e1_third (b c : UInt8) : e1 ((b.toNat &&& 0x0F) <<< 2 ||| (c.toNat >>> 6 &&& 0x03)) = letter (third b.toNat c.toNat) := by
  have hb := b.toNat_lt
  have hc := c.toNat_lt
  have high : b.toNat &&& 0x0F = b.toNat % 16 := Nat.and_two_pow_sub_one_eq_mod _ 4
  have low : c.toNat >>> 6 &&& 0x03 = c.toNat / 64 := by
    rw [Nat.shiftRight_eq_div_pow]
    exact (Nat.and_two_pow_sub_one_eq_mod _ 2).trans (Nat.mod_eq_of_lt (by omega))
  rw [high,low]
  exact e1_or (by omega) (by omega)

theorem e2_fourth (c : UInt8) : e2 c.toNat = letter (fourth c.toNat) := by
  rw [e2,fourth]
  exact congrArg letter (Nat.and_two_pow_sub_one_eq_mod _ 6)

theorem e1_last (a : UInt8) : e1 ((a.toNat &&& 0x03) <<< 4) = letter (second a.toNat 0) := by
  simpa using e1_second a 0

theorem e2_last (b : UInt8) : e2 ((b.toNat &&& 0x0F) <<< 2) = letter (third b.toNat 0) := by
  change e1 _ = _
  simpa using e1_third b 0

/-- From `p` on, the letters are put into the buffer. -/
def Encodes (dest : Bytes) (p : Nat) (text : Bytes) (result : Option (Nat × Bytes)) : Prop :=
  ∃ dest', result = some (p + text.length,dest') ∧ dest'.length = dest.length ∧ dest'.take (p + text.length) = dest.take p ++ text

theorem store_encodes {dest : Bytes} {p : Nat} (text : Bytes) (room : p + text.length ≤ dest.length) :
    Encodes dest p text ((store dest p text).bind fun dest => some (p + text.length,dest)) := by
  obtain ⟨dest',stored,same,written⟩ := store_at text room
  have taken := written text.length le_rfl
  rw [List.take_length] at taken
  exact ⟨dest',by rw [stored]; rfl,same,taken⟩

theorem after_front {str front rest : Bytes} {i : Nat} (cut : str = front ++ rest) (here : front.length = i) :
    (∀ k, str[i + k]? = rest[k]?) ∧ str[i]? = rest[0]? ∧ str.length = i + rest.length := by
  have later (k : Nat) : str[i + k]? = rest[k]? := by
    rw [cut,← here,List.getElem?_append_right (Nat.le_add_right _ _),Nat.add_sub_cancel_left]
  exact ⟨later,later 0,by rw [cut,List.length_append,here]⟩

theorem encode_eq {str front rest dest : Bytes} {i p : Nat} (cut : str = front ++ rest) (here : front.length = i)
    (room : p + (encoded rest).length ≤ dest.length) :
    Encodes dest p (encoded rest) ((encodeLoop str str.length i p dest).bind fun (i,p,dest) => encodeRest str str.length i p dest) := by
  obtain ⟨later,now,size⟩ := after_front cut here
  induction rest using encoded.induct generalizing front i p dest with
  | case1 a b c rest ih =>
    have cut' : str = (front ++ [a,b,c]) ++ rest := by rw [cut,List.append_assoc]; rfl
    have here' : (front ++ [a,b,c]).length = i + 3 := by rw [List.length_append,here]; rfl
    obtain ⟨later',now',size'⟩ := after_front cut' here'
    rw [encoded] at room ⊢
    rw [List.length_append] at room
    have fits := (Nat.add_le_add_left (Nat.le_add_right _ _) p).trans room
    obtain ⟨dest',stored,same,written⟩ := store_at _ fits
    have taken := written 4 le_rfl
    have room' : p + 4 + (encoded rest).length ≤ dest'.length := by
      rw [same]
      exact (Nat.add_assoc _ _ _).trans_le room
    obtain ⟨dest'',ran,same',taken'⟩ := ih cut' here' room' later' now' size'
    refine ⟨dest'',?_,same'.trans same,?_⟩
    · rw [List.length_append,← Nat.add_assoc]
      refine Eq.trans ?_ ran
      rw [encodeLoop,if_pos (by simp at size; omega),now,later 1,later 2]
      simp only [List.getElem?_cons_zero,List.getElem?_cons_succ,Option.map_some,Option.bind_eq_bind,Option.bind_some,
        e0_first,e1_second,e1_third,e2_fourth,stored]
    · rw [List.length_append,← List.append_assoc,← Nat.add_assoc]
      exact taken'.trans (congrArg (· ++ encoded rest) taken)
  | case2 a b =>
    rw [encodeLoop,if_neg (by simp at size; omega),encoded]
    rw [encoded] at room
    have two_left : (str.length : Int) - (i : Nat) = 2 := by
      simp at size
      omega
    simp only [Option.bind_some,encodeRest,two_left,now,later 1,List.getElem?_cons_zero,List.getElem?_cons_succ,
      Option.map_some,Option.bind_eq_bind,e0_first,e1_second,e2_last]
    exact store_encodes _ room
  | case3 a =>
    rw [encodeLoop,if_neg (by simp at size; omega),encoded]
    rw [encoded] at room
    have one_left : (str.length : Int) - (i : Nat) = 1 := by
      simp at size
      omega
    simp only [Option.bind_some,encodeRest,one_left,now,List.getElem?_cons_zero,Option.map_some,Option.bind_eq_bind,
      e0_first,e1_last]
    exact store_encodes _ room
  | case4 =>
    rw [encodeLoop,if_neg (by simp at size; omega),encoded]
    have none_left : (str.length : Int) - (i : Nat) = 0 := by
      simp at size
      omega
    refine ⟨dest,?_,rfl,(List.append_nil _).symm⟩
    simp only [Option.bind_some,encodeRest,none_left,if_true]
    rfl

theorem encoded_length (input : Bytes) : (encoded input).length = (input.length + 2) / 3*4 := by
  induction input using encoded.induct with
  | case1 a b c rest ih =>
    rw [encoded,List.length_append,ih]
    simp only [List.length_cons,List.length_nil]
    omega
  | case2 a b => simp [encoded]
  | case3 a => simp [encoded]
  | case4 => simp [encoded]

/-- The text has to be short enough for an `int` to count it. -/
theorem base64Encode_eq {input : Bytes} (short : input.length < 2^31) :
    base64Encode input = some (if (encoded input).length < 2^31 then some (encoded input) else none) := by
  have length := encoded_length input
  have room : 0 + (encoded input).length ≤ (resize [] (modpB64EncodeLen input.length)).length := by
    rw [resize_nil,modpB64EncodeLen]
    omega
  obtain ⟨dest,ran,same,written⟩ := encode_eq (List.nil_append _).symm rfl room
  rw [resize_nil,modpB64EncodeLen] at same
  have nul : 0 + (encoded input).length + ([0] : Bytes).length ≤ dest.length := by
    rw [List.length_singleton]
    omega
  obtain ⟨dest',stored,same',written'⟩ := store_at _ nul
  have taken := written' 0 (Nat.zero_le _)
  rw [Nat.add_zero,List.take_zero,List.append_nil,written,List.take_zero,List.nil_append,Nat.zero_add] at taken
  rw [Nat.zero_add] at ran stored
  have looped : (encodeLoop input input.length 0 0 (resize [] (modpB64EncodeLen input.length))).bind
      (fun (i,p,dest) => encodeRest input input.length i p dest) = some ((encoded input).length,dest) := ran
  have whole : modpB64Encode (resize [] (modpB64EncodeLen input.length)) input input.length =
      some (toInt32 (encoded input).length,dest') := by
    obtain ⟨⟨i,p,front⟩,before,after⟩ := Option.bind_eq_some_iff.mp looped
    have after : encodeRest input input.length i p front = some ((encoded input).length,dest) := after
    rw [modpB64Encode,before]
    simp only [Option.bind_eq_bind,Option.bind_some,after,stored]
    rfl
  rw [base64Encode,toInt32_small short,whole]
  simp only [Option.bind_eq_bind,Option.bind_some]
  by_cases fits : (encoded input).length < 2^31
  · rw [if_pos fits,toInt32_small fits,if_neg (by omega),Int.toNat_natCast,resize_take (by omega),taken]
    rfl
  · have negative : toInt32 (encoded input).length < 0 := by
      have whole : (encoded input).length % 2^32 = (encoded input).length := Nat.mod_eq_of_lt (by omega)
      rw [toInt32,whole,if_neg fits]
      omega
    rw [if_neg fits,if_pos negative]
    rfl

end Encoding

end WebSearch.Base64
