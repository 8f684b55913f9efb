import SeatMachine.Json.Reader
import SeatMachine.Proofs.Json.Spelling
/-!
# Reading what was written

The compact text of a value is read back as that value. The tokens of any value are put together again
(`ofTokens?_tokens`); its characters are cut into these tokens if it is `IsWritable`: its numbers are literals. A
value is `IsValid` if its strings denote texts, too, and its numbers are finite. Valid values are plain, so that only
their depth decides whether they are acceptable. All values that are written here are even `IsRegular`: their numbers
are integers of at most 64 bits.

The depth of a value is that of its text: `nesting?_compact` counts the arrays and objects that are open at once on
the way through the text.
-/
namespace SeatMachine.Json

/-! ## Regular values -/

/-- Every string and every name denotes a text, and every number is the literal of an integer whose
magnitude fits a word. -/
inductive IsRegular : Json → Prop
  | null : IsRegular .null
  | bool (value : Bool) : IsRegular (.bool value)
  | int {i : Int} : i.natAbs < UInt64.size → IsRegular (.int i)
  | text (s : String) : IsRegular (.text s)
  | array {items : List Json} : (∀ item ∈ items, IsRegular item) → IsRegular (.array items)
  | record {members : List (String × Json)} :
    (∀ member ∈ members, IsRegular member.2) → IsRegular (.record members)

theorem isRegular_int64 (x : Int64) : IsRegular (.int x.toInt) := by
  have hlow := x.minValue_le_toInt
  have hhigh := x.toInt_le
  have hmin : Int64.minValue.toInt = -9223372036854775808 := by decide
  have hmax : Int64.maxValue.toInt = 9223372036854775807 := by decide
  refine .int ?_
  simp only [UInt64.size]
  omega

theorem isRegular_nat (n : UInt64) : IsRegular (.nat n.toNat) := by
  refine .int ?_
  rw [Int.natAbs_natCast]
  exact n.toNat_lt

/-! ## Writable values -/

/-- Every number is a literal. Strings and names need not denote texts. -/
inductive IsWritable : Json → Prop
  | null : IsWritable .null
  | bool (value : Bool) : IsWritable (.bool value)
  | number {n : Number} : n.IsLiteral → IsWritable (.number n)
  | string (s : Option String) : IsWritable (.string s)
  | array {items : List Json} : (∀ item ∈ items, IsWritable item) → IsWritable (.array items)
  | object {members : List (Option String × Json)} :
    (∀ member ∈ members, IsWritable member.2) → IsWritable (.object members)

/-- Every string and every name denotes a text, and every number is the literal of a finite number. -/
inductive IsValid : Json → Prop
  | null : IsValid .null
  | bool (value : Bool) : IsValid (.bool value)
  | number {n : Number} : n.IsLiteral → n.isFinite = true → IsValid (.number n)
  | text (s : String) : IsValid (.text s)
  | array {items : List Json} : (∀ item ∈ items, IsValid item) → IsValid (.array items)
  | record {members : List (String × Json)} :
    (∀ member ∈ members, IsValid member.2) → IsValid (.record members)

theorem IsValid.isWritable {j : Json} (h : j.IsValid) : j.IsWritable := by
  induction h with
  | null => exact .null
  | bool value => exact .bool value
  | number hn _ => exact .number hn
  | text s => exact .string (some s)
  | array _ ih => exact .array ih
  | record _ ih =>
    refine .object fun member hmember => ?_
    obtain ⟨m, hm, rfl⟩ := List.mem_map.1 hmember
    exact ih m hm

/-! ### Characters -/

def charsOf (tokens : List Token) : List Char :=
  tokens.flatMap Token.chars

@[simp]
theorem charsOf_nil : charsOf [] = [] := rfl

@[simp]
theorem charsOf_cons (token : Token) (tokens : List Token) :
    charsOf (token :: tokens) = token.chars ++ charsOf tokens := by
  simp [charsOf]

@[simp]
theorem charsOf_append (tokens tokens' : List Token) :
    charsOf (tokens ++ tokens') = charsOf tokens ++ charsOf tokens' := by
  simp [charsOf]

theorem continues_closeArray : Continues (charsOf [.closeArray]) [.closeArray] :=
  continues_nil.spells.punctuation _ _ rfl

theorem continues_closeObject : Continues (charsOf [.closeObject]) [.closeObject] :=
  continues_nil.spells.punctuation _ _ rfl

theorem continues_moreItems :
    ∀ {items : List Json}, (∀ item ∈ items, Spells (charsOf item.tokens) item.tokens) →
      Continues (charsOf (moreItemTokens items ++ [.closeArray])) (moreItemTokens items ++ [.closeArray])
  | [], _ => continues_closeArray
  | item :: items, h => by
    have hitem := h item List.mem_cons_self
    have hrest := continues_moreItems fun x hx => h x (List.mem_cons_of_mem _ hx)
    have hall := (hitem.append hrest).punctuation ',' .comma rfl
    simpa [moreItemTokens, Token.chars] using hall

theorem continues_member (name : Option String) {cs : List Char} {tokens : List Token} (h : Spells cs tokens) :
    Continues (charsOf [.string name, .colon] ++ cs) (.string name :: .colon :: tokens) := by
  have hcolon := h.punctuation ':' .colon rfl
  simpa [Token.chars, charsOf] using (Text.continues_string name).append hcolon

theorem continues_moreMembers :
    ∀ {members : List (Option String × Json)},
      (∀ member ∈ members, Spells (charsOf member.2.tokens) member.2.tokens) →
      Continues (charsOf (moreMemberTokens members ++ [.closeObject])) (moreMemberTokens members ++ [.closeObject])
  | [], _ => continues_closeObject
  | (name, value) :: members, h => by
    have hvalue : Spells (charsOf value.tokens) value.tokens := h (name, value) List.mem_cons_self
    have hrest := continues_moreMembers fun m hm => h m (List.mem_cons_of_mem _ hm)
    have hmember := continues_member name (hvalue.append hrest)
    have hall := hmember.spells.punctuation ',' .comma rfl
    simpa [moreMemberTokens, Token.chars] using hall

/-- The text of a writable value spells its tokens. -/
theorem spells_tokens {j : Json} (h : j.IsWritable) : Spells (charsOf j.tokens) j.tokens := by
  induction h with
  | null => simpa [tokens, charsOf] using spells_null
  | bool value => simpa [tokens, charsOf] using spells_bool value
  | number hn => simpa [tokens, charsOf] using spells_number hn
  | string s => simpa [tokens, charsOf] using (Text.continues_string s).spells
  | @array items _ ih =>
    have hitems : Spells (charsOf (itemTokens items ++ [.closeArray])) (itemTokens items ++ [.closeArray]) := by
      cases items with
      | nil => exact continues_closeArray.spells
      | cons item items =>
        have hitem := ih item List.mem_cons_self
        have hrest := continues_moreItems fun x hx => ih x (List.mem_cons_of_mem _ hx)
        simpa [itemTokens] using hitem.append hrest
    simpa [tokens, Token.chars] using (hitems.punctuation '[' .openArray rfl).spells
  | @object members _ ih =>
    have hmembers : Spells (charsOf (memberTokens members ++ [.closeObject]))
        (memberTokens members ++ [.closeObject]) := by
      cases members with
      | nil => exact continues_closeObject.spells
      | cons member members =>
        obtain ⟨name, value⟩ := member
        have hvalue : Spells (charsOf value.tokens) value.tokens := ih (name, value) List.mem_cons_self
        have hrest := continues_moreMembers fun m hm => ih m (List.mem_cons_of_mem _ hm)
        simpa [memberTokens] using (continues_member name (hvalue.append hrest)).spells
    simpa [tokens, Token.chars] using (hmembers.punctuation '\x7b' .openObject rfl).spells

theorem ofChars?_compact {j : Json} (h : j.IsWritable) :
    Token.ofChars? j.compact.toList = some j.tokens := by
  rw [compact, String.toList_ofList]
  exact (spells_tokens h).ofChars?_eq

/-! ## Tokens -/

namespace Reader

/-- An array that was just opened takes the start of a value like any other place. -/
theorem foldlM_feed_firstItem (j : Json) (stack : List Open) :
    j.tokens.foldlM feed ⟨stack, .firstItem⟩ = j.tokens.foldlM feed ⟨stack, .value⟩ := by
  cases j <;> rfl

mutual

/-- The tokens of a value complete it, and it goes into the innermost open container. -/
theorem foldlM_feed_tokens : ∀ (j : Json) (stack : List Open),
    j.tokens.foldlM feed ⟨stack, .value⟩ = fill j stack
  | .null, stack => by simp [tokens, feed, takeValue]
  | .bool b, stack => by simp [tokens, feed, takeValue]
  | .number n, stack => by simp [tokens, feed, takeValue]
  | .string s, stack => by simp [tokens, feed, takeValue]
  | .array items, stack => by
    have hopen : feed ⟨stack, .value⟩ .openArray = some ⟨.array [] :: stack, .firstItem⟩ := rfl
    have hitems := foldlM_feed_items items stack
    simpa [tokens, hopen] using hitems
  | .object members, stack => by
    have hopen : feed ⟨stack, .value⟩ .openObject = some ⟨.object [] :: stack, .firstName⟩ := rfl
    have hmembers := foldlM_feed_members members stack
    simpa [tokens, hopen] using hmembers
termination_by structural j => j

theorem foldlM_feed_items : ∀ (items : List Json) (stack : List Open),
    (itemTokens items ++ [Token.closeArray]).foldlM feed ⟨.array [] :: stack, .firstItem⟩ =
      fill (.array items) stack
  | [], stack => by simp [itemTokens, feed, close]
  | item :: items, stack => by
    have hitem : item.tokens.foldlM feed ⟨.array [] :: stack, .firstItem⟩ =
        some ⟨.array [item] :: stack, .afterValue⟩ := by
      rw [foldlM_feed_firstItem, foldlM_feed_tokens]
      rfl
    have hmore := foldlM_feed_moreItems items [item] stack
    have hclose : feed ⟨.array (items.reverse ++ [item]) :: stack, .afterValue⟩ .closeArray =
        fill (.array (item :: items)) stack := by
      simp [feed, close]
    simp [itemTokens, hitem, hmore, hclose]
termination_by structural items => items

theorem foldlM_feed_moreItems : ∀ (items done : List Json) (stack : List Open),
    (moreItemTokens items).foldlM feed ⟨.array done :: stack, .afterValue⟩ =
      some ⟨.array (items.reverse ++ done) :: stack, .afterValue⟩
  | [], _, _ => rfl
  | item :: items, done, stack => by
    have hcomma : feed ⟨.array done :: stack, .afterValue⟩ .comma =
        some ⟨.array done :: stack, .value⟩ := rfl
    have hitem : item.tokens.foldlM feed ⟨.array done :: stack, .value⟩ =
        some ⟨.array (item :: done) :: stack, .afterValue⟩ := foldlM_feed_tokens item _
    have hmore := foldlM_feed_moreItems items (item :: done) stack
    simp [moreItemTokens, hcomma, hitem, hmore]
termination_by structural items => items

theorem foldlM_feed_members : ∀ (members : List (Option String × Json)) (stack : List Open),
    (memberTokens members ++ [Token.closeObject]).foldlM feed ⟨.object [] :: stack, .firstName⟩ =
      fill (.object members) stack
  | [], stack => by simp [memberTokens, feed, close]
  | (name, value) :: members, stack => by
    have hname : feed ⟨.object [] :: stack, .firstName⟩ (.string name) =
        some ⟨.member [] name :: stack, .colon⟩ := rfl
    have hcolon : feed ⟨.member [] name :: stack, .colon⟩ .colon =
        some ⟨.member [] name :: stack, .value⟩ := rfl
    have hvalue : value.tokens.foldlM feed ⟨.member [] name :: stack, .value⟩ =
        some ⟨.object [(name, value)] :: stack, .afterValue⟩ := foldlM_feed_tokens value _
    have hmore := foldlM_feed_moreMembers members [(name, value)] stack
    have hclose : feed ⟨.object (members.reverse ++ [(name, value)]) :: stack, .afterValue⟩ .closeObject =
        fill (.object ((name, value) :: members)) stack := by
      simp [feed, close]
    simp [memberTokens, hname, hcolon, hvalue, hmore, hclose]
termination_by structural members => members

theorem foldlM_feed_moreMembers :
    ∀ (members done : List (Option String × Json)) (stack : List Open),
      (moreMemberTokens members).foldlM feed ⟨.object done :: stack, .afterValue⟩ =
        some ⟨.object (members.reverse ++ done) :: stack, .afterValue⟩
  | [], _, _ => rfl
  | (name, value) :: members, done, stack => by
    have hcomma : feed ⟨.object done :: stack, .afterValue⟩ .comma =
        some ⟨.object done :: stack, .name⟩ := rfl
    have hname : feed ⟨.object done :: stack, .name⟩ (.string name) =
        some ⟨.member done name :: stack, .colon⟩ := rfl
    have hcolon : feed ⟨.member done name :: stack, .colon⟩ .colon =
        some ⟨.member done name :: stack, .value⟩ := rfl
    have hvalue : value.tokens.foldlM feed ⟨.member done name :: stack, .value⟩ =
        some ⟨.object ((name, value) :: done) :: stack, .afterValue⟩ := foldlM_feed_tokens value _
    have hmore := foldlM_feed_moreMembers members ((name, value) :: done) stack
    simp [moreMemberTokens, hcomma, hname, hcolon, hvalue, hmore]
termination_by structural members => members

end

end Reader

/-- The tokens of a value are put together to that value. -/
theorem ofTokens?_tokens (j : Json) : ofTokens? j.tokens = some j := by
  have h := Reader.foldlM_feed_tokens j []
  simp only [Reader.fill] at h
  simp [ofTokens?, Reader.start, h, Reader.finish]

/-- The compact text of a writable value is read back as that value. -/
theorem IsWritable.parse?_compact {j : Json} (h : j.IsWritable) : parse? j.compact = some j := by
  simp [parse?, ofChars?_compact h, ofTokens?_tokens]

theorem parse?_compact {j : Json} (h : j.IsValid) : parse? j.compact = some j :=
  h.isWritable.parse?_compact

/-! ## Plain values -/

namespace Number

theorem le_ofDigitChars (ds : List Char) (n : Nat) : n ≤ Nat.ofDigitChars 10 ds n := by
  induction ds generalizing n with
  | nil => exact Nat.le_refl _
  | cons d ds ih =>
    rw [Nat.ofDigitChars_cons]
    exact Nat.le_trans (by omega) (ih _)

/-- Digits whose value fits a word are all taken in. -/
theorem accumulate_eq {ds : List Char} :
    ∀ {n : Nat}, Nat.ofDigitChars 10 ds n < UInt64.size →
      accumulate n ds = (Nat.ofDigitChars 10 ds n, 0) := by
  induction ds with
  | nil => intro n _; rfl
  | cons d ds ih =>
    intro n h
    rw [Nat.ofDigitChars_cons] at h ⊢
    have hnext : n * 10 + (d.toNat - '0'.toNat) = 10 * n + (d.toNat - '0'.toNat) := by omega
    have hfits := Nat.lt_of_le_of_lt (le_ofDigitChars ds _) h
    simp only [accumulate, hnext, if_pos hfits]
    exact ih h

theorem parts_ofInt {i : Int} (h : i.natAbs < UInt64.size) : (ofInt i).parts = (i.natAbs, 0) := by
  have hvalue : Nat.ofDigitChars 10 (Nat.toDigits 10 i.natAbs) 0 = i.natAbs := magnitude_ofInt i
  have hwhole : accumulate 0 (Nat.toDigits 10 i.natAbs) = (i.natAbs, 0) := by
    rw [accumulate_eq (by rw [hvalue]; exact h), hvalue]
  simp [parts, ofInt, hwhole, accumulate]

/-- Rounding at most doubles a number. -/
theorem nearestDouble_le (n : Nat) : nearestDouble n ≤ 2 * n := by
  unfold nearestDouble
  by_cases hn : n < Nat.pow 2 53
  · rw [if_pos hn]; omega
  · rw [if_neg hn]
    dsimp only
    have hpos : n ≠ 0 := by
      rintro rfl
      exact hn (Nat.two_pow_pos 53)
    have hunit : Nat.pow 2 (Nat.log2 n - 52) ≤ n :=
      Nat.le_trans (Nat.pow_le_pow_right (by decide) (Nat.sub_le _ _)) (Nat.log2_self_le hpos)
    have hbelow : n / Nat.pow 2 (Nat.log2 n - 52) * Nat.pow 2 (Nat.log2 n - 52) ≤ n :=
      Nat.div_mul_le_self _ _
    split
    · rw [Nat.add_mul, Nat.one_mul]; omega
    · omega

theorem overflowBound_ge : 2 * UInt64.size ≤ overflowBound := by
  decide +kernel

/-- An integer that fits a word is far from overflowing. -/
theorem isFinite_ofInt {i : Int} (h : i.natAbs < UInt64.size) : (ofInt i).isFinite = true := by
  have hle := nearestDouble_le i.natAbs
  have hbound := overflowBound_ge
  have hlt : nearestDouble i.natAbs < overflowBound := by omega
  have hone : nearestDouble (Nat.pow 10 (0 : Int).toNat) = 1 := by decide
  have hscale : ¬(308 : Int) < 0 := by decide
  simp only [isFinite, parts_ofInt h, if_neg hscale, hone, Nat.mul_one, decide_eq_true hlt, ite_self]

end Number

theorem itemsPlain_eq_all (items : List Json) : itemsPlain items = items.all isPlain := by
  induction items with
  | nil => rfl
  | cons item items ih => simp [itemsPlain, ih]

theorem membersPlain_eq_all (members : List (Option String × Json)) :
    membersPlain members = members.all fun m => m.1.isSome && m.2.isPlain := by
  induction members with
  | nil => rfl
  | cons member members ih => simp [membersPlain, ih]

theorem IsRegular.isValid {j : Json} (h : j.IsRegular) : j.IsValid := by
  induction h with
  | null => exact .null
  | bool value => exact .bool value
  | @int i hi => exact .number (Number.isLiteral_ofInt i) (Number.isFinite_ofInt hi)
  | text s => exact .text s
  | array _ ih => exact .array ih
  | record _ ih => exact .record ih

theorem IsValid.isPlain {j : Json} (h : j.IsValid) : j.isPlain = true := by
  induction h with
  | null => rfl
  | bool value => rfl
  | number _ hfinite => exact hfinite
  | text s => rfl
  | array _ ih =>
    rw [Json.isPlain, itemsPlain_eq_all, List.all_eq_true]
    exact ih
  | record _ ih =>
    rw [Json.record, Json.isPlain, membersPlain_eq_all, List.all_eq_true]
    intro member hmember
    obtain ⟨m, hm, rfl⟩ := List.mem_map.1 hmember
    exact ih m hm

/-- Of a valid value only the depth matters. -/
theorem IsValid.isAcceptable {j : Json} (h : j.IsValid) : j.isAcceptable = decide (j.depth ≤ maxDepth) := by
  rw [Json.isAcceptable, h.isPlain, Bool.true_and]

/-! ## Nesting of a text -/

/-- The number of open arrays and objects after a token, if so many are open before it. -/
def Token.opened (before : Nat) : Token → Nat
  | .openArray | .openObject => before + 1
  | .closeArray | .closeObject => before - 1
  | _ => before

/-- The greatest number of arrays and objects that are open at once on the way through tokens, if so many
are open before them. -/
def Token.nesting (before : Nat) : List Token → Nat
  | [] => before
  | token :: tokens => max before (nesting (token.opened before) tokens)

/-- The greatest number of arrays and objects that are open at once on the way through a text. -/
def nesting? (text : String) : Option Nat :=
  (Token.ofChars? text.toList).map (Token.nesting 0)

theorem Token.le_nesting (before : Nat) (tokens : List Token) : before ≤ nesting before tokens := by
  cases tokens with
  | nil => exact Nat.le_refl _
  | cons token tokens => exact Nat.le_max_left _ _

mutual

/-- A value opens as many arrays and objects as it is deep, and closes them again. -/
theorem nesting_tokens : ∀ (j : Json) (before : Nat) (rest : List Token),
    Token.nesting before (j.tokens ++ rest) = max (before + j.depth) (Token.nesting before rest)
  | .array items, before, rest => by
    have h := nesting_items items (before + 1) (.closeArray :: rest)
    have hle := Token.le_nesting before rest
    simp only [tokens, depth, List.cons_append, List.append_assoc, List.nil_append, Token.nesting,
      Token.opened, Nat.add_sub_cancel] at h ⊢
    omega
  | .object members, before, rest => by
    have h := nesting_members members (before + 1) (.closeObject :: rest)
    have hle := Token.le_nesting before rest
    simp only [tokens, depth, List.cons_append, List.append_assoc, List.nil_append, Token.nesting,
      Token.opened, Nat.add_sub_cancel] at h ⊢
    omega
  | .null, _, _ => rfl
  | .bool _, _, _ => rfl
  | .number _, _, _ => rfl
  | .string _, _, _ => rfl
termination_by structural j => j

theorem nesting_items : ∀ (items : List Json) (before : Nat) (rest : List Token),
    Token.nesting before (itemTokens items ++ rest) =
      max (before + itemsDepth items) (Token.nesting before rest)
  | [], before, rest => by
    have hle := Token.le_nesting before rest
    simp only [itemTokens, itemsDepth, List.nil_append]
    omega
  | item :: items, before, rest => by
    have hitem := nesting_tokens item before (moreItemTokens items ++ rest)
    have hmore := nesting_moreItems items before rest
    simp only [itemTokens, itemsDepth, List.append_assoc] at hitem ⊢
    omega
termination_by structural items => items

theorem nesting_moreItems : ∀ (items : List Json) (before : Nat) (rest : List Token),
    Token.nesting before (moreItemTokens items ++ rest) =
      max (before + itemsDepth items) (Token.nesting before rest)
  | [], before, rest => by
    have hle := Token.le_nesting before rest
    simp only [moreItemTokens, itemsDepth, List.nil_append]
    omega
  | item :: items, before, rest => by
    have hitem := nesting_tokens item before (moreItemTokens items ++ rest)
    have hmore := nesting_moreItems items before rest
    simp only [moreItemTokens, itemsDepth, List.cons_append, List.append_assoc, Token.nesting,
      Token.opened] at hitem ⊢
    omega
termination_by structural items => items

theorem nesting_members :
    ∀ (members : List (Option String × Json)) (before : Nat) (rest : List Token),
      Token.nesting before (memberTokens members ++ rest) =
        max (before + membersDepth members) (Token.nesting before rest)
  | [], before, rest => by
    have hle := Token.le_nesting before rest
    simp only [memberTokens, membersDepth, List.nil_append]
    omega
  | (name, value) :: members, before, rest => by
    have hvalue := nesting_tokens value before (moreMemberTokens members ++ rest)
    have hmore := nesting_moreMembers members before rest
    simp only [memberTokens, membersDepth, List.cons_append, List.append_assoc, Token.nesting,
      Token.opened] at hvalue ⊢
    omega
termination_by structural members => members

theorem nesting_moreMembers :
    ∀ (members : List (Option String × Json)) (before : Nat) (rest : List Token),
      Token.nesting before (moreMemberTokens members ++ rest) =
        max (before + membersDepth members) (Token.nesting before rest)
  | [], before, rest => by
    have hle := Token.le_nesting before rest
    simp only [moreMemberTokens, membersDepth, List.nil_append]
    omega
  | (name, value) :: members, before, rest => by
    have hvalue := nesting_tokens value before (moreMemberTokens members ++ rest)
    have hmore := nesting_moreMembers members before rest
    simp only [moreMemberTokens, membersDepth, List.cons_append, List.append_assoc, Token.nesting,
      Token.opened] at hvalue ⊢
    omega
termination_by structural members => members

end

/-- On the way through its tokens, as many arrays and objects are open at once as the value is deep. -/
theorem nesting_eq_depth (j : Json) : Token.nesting 0 j.tokens = j.depth := by
  have hn := nesting_tokens j 0 []
  simpa only [List.append_nil, Token.nesting, Nat.zero_add, Nat.max_zero] using hn

/-- The text of a valid value has as many arrays and objects open at once as the value is deep. -/
theorem nesting?_compact {j : Json} (h : j.IsValid) : nesting? j.compact = some j.depth := by
  simp [nesting?, ofChars?_compact h.isWritable, nesting_eq_depth]

end SeatMachine.Json
