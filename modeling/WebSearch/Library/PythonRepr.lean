import Mathlib.Data.List.Basic

/-! `repr` of a byte string and `str` of a list of them, as Python 2 writes them. What is
written can be read back, so different lists have different texts. -/
namespace WebSearch.Library.PythonRepr

def charOf (b : UInt8) : Char := Char.ofNat b.toNat

def reprByte (quote : Char) (b : UInt8) : List Char :=
  if charOf b = quote ∨ charOf b = '\\' then ['\\',charOf b]
  else if charOf b = '\t' then ['\\','t']
  else if charOf b = '\n' then ['\\','n']
  else if charOf b = '\r' then ['\\','r']
  else if b < 32 ∨ 127 ≤ b then ['\\','x',Nat.digitChar (b.toNat / 16),Nat.digitChar (b.toNat % 16)]
  else [charOf b]

/-- The quote is a double one only when that saves escapes. -/
def quoteOf (bytes : List UInt8) : Char := if 39 ∈ bytes ∧ 34 ∉ bytes then '"' else '\''

def reprBytes (bytes : List UInt8) : List Char :=
  quoteOf bytes :: (bytes.flatMap (reprByte (quoteOf bytes)) ++ [quoteOf bytes])

def bytesOf (s : String) : List UInt8 := s.toByteArray.data.toList

def strItems : List (List UInt8) → List Char
  | [] => [']']
  | [last] => reprBytes last ++ [']']
  | item :: rest => reprBytes item ++ ',' :: ' ' :: strItems rest

def strList (items : List String) : String := String.ofList ('[' :: strItems (items.map bytesOf))

/-! Reading one byte back. -/

def hexValue (c : Char) : Nat := if c.toNat < 97 then c.toNat - 48 else c.toNat - 87

def readByte : List Char → Option (UInt8 × List Char)
  | [] => none
  | '\\' :: [] => none
  | '\\' :: c :: rest =>
    if c = 't' then some (9,rest) else if c = 'n' then some (10,rest) else if c = 'r' then some (13,rest)
    else if c = 'x' then match rest with
      | high :: low :: rest => some (UInt8.ofNat (16 * hexValue high + hexValue low),rest)
      | _ => none
    else some (UInt8.ofNat c.toNat,rest)
  | c :: rest => some (UInt8.ofNat c.toNat,rest)

theorem hexValue_digitChar : ∀ d < 16, hexValue (Nat.digitChar d) = d := by decide

theorem charOf_toNat (b : UInt8) : UInt8.ofNat (charOf b).toNat = b := by
  have small := b.toNat_lt
  have valid : b.toNat.isValidChar := .inl (by omega)
  have code : (charOf b).toNat = b.toNat := by
    rw [charOf,Char.ofNat,dif_pos valid]
    rfl
  rw [code]
  exact UInt8.ofNat_toNat

theorem readByte_escape {c : Char} (special : c = '\'' ∨ c = '"' ∨ c = '\\') (rest : List Char) :
    readByte ('\\' :: c :: rest) = some (UInt8.ofNat c.toNat,rest) := by
  rcases special with same | same | same <;> rw [same] <;> rfl

theorem readByte_letter {c : Char} (plain : c ≠ '\\') (rest : List Char) :
    readByte (c :: rest) = some (UInt8.ofNat c.toNat,rest) := by
  unfold readByte
  split <;> simp_all

theorem readByte_hex (b : UInt8) (rest : List Char) :
    readByte ('\\' :: 'x' :: Nat.digitChar (b.toNat / 16) :: Nat.digitChar (b.toNat % 16) :: rest) = some (b,rest) := by
  have small := b.toNat_lt
  have value : 16 * (b.toNat / 16) + b.toNat % 16 = b.toNat := by omega
  change some (UInt8.ofNat (16 * hexValue _ + hexValue _),rest) = _
  rw [hexValue_digitChar _ (by omega),hexValue_digitChar _ (by omega),value,UInt8.ofNat_toNat]

theorem readByte_reprByte {quote : Char} (known : quote = '\'' ∨ quote = '"') (b : UInt8) (rest : List Char) :
    readByte (reprByte quote b ++ rest) = some (b,rest) := by
  have back := charOf_toNat b
  unfold reprByte
  split
  · rename_i special
    have escaped : charOf b = '\'' ∨ charOf b = '"' ∨ charOf b = '\\' := by
      rcases special with quoted | slash
      · rcases known with single | double
        · exact .inl (quoted.trans single)
        · exact .inr (.inl (quoted.trans double))
      · exact .inr (.inr slash)
    exact (readByte_escape escaped rest).trans (by rw [back])
  · rename_i special
    split
    · rename_i tab
      rw [tab] at back
      rw [← back]
      rfl
    · split
      · rename_i line
        rw [line] at back
        rw [← back]
        rfl
      · split
        · rename_i line
          rw [line] at back
          rw [← back]
          rfl
        · split
          · exact readByte_hex b rest
          · exact (readByte_letter (fun slash => special (.inr slash)) rest).trans (by rw [back])

theorem reprByte_head {quote : Char} (known : quote = '\'' ∨ quote = '"') (b : UInt8) :
    ∃ first rest, reprByte quote b = first :: rest ∧ first ≠ quote := by
  have slash : '\\' ≠ quote := by rcases known with same | same <;> rw [same] <;> decide
  unfold reprByte
  split
  · exact ⟨_,_,rfl,slash⟩
  · rename_i other
    repeat' split
    all_goals first | exact ⟨_,_,rfl,slash⟩ | exact ⟨_,_,rfl,fun same => other (.inl same)⟩

theorem flatMap_reprByte {quote : Char} (known : quote = '\'' ∨ quote = '"') {bytes others : List UInt8} {xs ys : List Char}
    (same : bytes.flatMap (reprByte quote) ++ quote :: xs = others.flatMap (reprByte quote) ++ quote :: ys) :
    bytes = others ∧ xs = ys := by
  induction bytes generalizing others with
  | nil =>
    cases others with
    | nil => exact ⟨rfl,(List.cons.inj same).2⟩
    | cons b others =>
      obtain ⟨first,rest,begins,different⟩ := reprByte_head known b
      rw [List.flatMap_cons,begins] at same
      exact absurd (List.cons.inj same).1.symm different
  | cons a bytes ih =>
    cases others with
    | nil =>
      obtain ⟨first,rest,begins,different⟩ := reprByte_head known a
      rw [List.flatMap_cons,begins] at same
      exact absurd (List.cons.inj same).1 different
    | cons b others =>
      have read := congrArg readByte same
      rw [List.flatMap_cons,List.flatMap_cons,List.append_assoc,List.append_assoc,readByte_reprByte known,
        readByte_reprByte known,Option.some.injEq,Prod.mk.injEq] at read
      obtain ⟨equal,later⟩ := ih read.2
      exact ⟨by rw [read.1,equal],later⟩

theorem quoteOf_known (bytes : List UInt8) : quoteOf bytes = '\'' ∨ quoteOf bytes = '"' := by
  unfold quoteOf
  split
  · exact .inr rfl
  · exact .inl rfl

theorem reprBytes_append {bytes others : List UInt8} {xs ys : List Char}
    (same : reprBytes bytes ++ xs = reprBytes others ++ ys) : bytes = others ∧ xs = ys := by
  obtain ⟨quote,inside⟩ := List.cons.inj same
  rw [← quote,List.append_eq,List.append_eq,List.append_assoc,List.append_assoc] at inside
  exact flatMap_reprByte (quoteOf_known bytes) inside

theorem strItems_injective : Function.Injective strItems := by
  have bracket (bytes : List UInt8) (rest : List Char) : reprBytes bytes ++ rest ≠ [']'] := by
    intro same
    have first := (List.cons.inj same).1
    rcases quoteOf_known bytes with single | double
    · rw [single] at first
      exact absurd first (by decide)
    · rw [double] at first
      exact absurd first (by decide)
  intro items others same
  fun_induction strItems items generalizing others with
  | case1 =>
    rcases others with _ | ⟨b,_ | ⟨c,others⟩⟩
    · rfl
    · exact absurd same.symm (bracket b _)
    · exact absurd same.symm (bracket b _)
  | case2 a =>
    rcases others with _ | ⟨b,_ | ⟨c,others⟩⟩
    · exact absurd same (bracket a _)
    · rw [(reprBytes_append same).1]
    · exact absurd (List.cons.inj (reprBytes_append same).2).1 (by decide)
  | case3 a rest some ih =>
    rcases others with _ | ⟨b,_ | ⟨c,others⟩⟩
    · exact absurd same (bracket a _)
    · exact absurd (List.cons.inj (reprBytes_append same).2).1 (by decide)
    · obtain ⟨first,later⟩ := reprBytes_append same
      rw [first,ih (List.cons.inj (List.cons.inj later).2).2]

theorem bytesOf_injective : Function.Injective bytesOf := by
  intro s t same
  apply String.toByteArray_inj.mp
  exact ByteArray.ext (Array.toList_inj.mp same)

theorem strList_injective : Function.Injective strList := by
  intro items others same
  have text := congrArg String.toList same
  rw [strList,strList,String.toList_ofList,String.toList_ofList] at text
  exact bytesOf_injective.list_map (strItems_injective (List.cons.inj text).2)

end WebSearch.Library.PythonRepr
