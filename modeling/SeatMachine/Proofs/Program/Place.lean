import SeatMachine.Proofs.Json.Reading
import SeatMachine.Proofs.Program.RoundTrip
/-!
# Places for records

A record stands among the records of a program or, at any depth, in the body of a conditional, whose record may be
an object with any other members, or a list. A `Place` is such a program without the record; `Place.fill` puts a
record there, and `Place.path` is the way to its instruction in the program that is read.

If a program is read with one record at a place, the instruction of that record stands at the path of the place, and
another record there changes this one instruction only: `Place.ofJson?_fill`.
-/
namespace SeatMachine

/-! ## Instructions by their paths -/

namespace Instruction

def at? : Instruction → List Nat → Option Instruction
  | i, [] => some i
  | .branch _ _ body, n :: path => body[n]?.bind fun i => i.at? path
  | .op _, _ :: _ => none

def replace (new : Instruction) : List Nat → Instruction → Instruction
  | [], _ => new
  | n :: path, .branch comparison target body =>
    match body[n]? with
    | some i => .branch comparison target (body.set n (replace new path i))
    | none => .branch comparison target body
  | _ :: _, .op operation => .op operation

variable {i inner : Instruction} {path : List Nat}

theorem at?_append (h : i.at? path = some inner) (path' : List Nat) : i.at? (path ++ path') = inner.at? path' := by
  induction path generalizing i with
  | nil =>
    cases h
    rfl
  | cons n path ih =>
    cases i with
    | op operation => cases h
    | branch comparison target body =>
      obtain ⟨next, hnext, h⟩ := Option.bind_eq_some_iff.1 h
      rw [List.cons_append, at?, hnext, Option.bind_some, ih h]

theorem replace_append (h : i.at? path = some inner) (new : Instruction) (path' : List Nat) :
    replace new (path ++ path') i = replace (replace new path' inner) path i := by
  induction path generalizing i with
  | nil =>
    cases h
    rfl
  | cons n path ih =>
    cases i with
    | op operation => cases h
    | branch comparison target body =>
      obtain ⟨next, hnext, h⟩ := Option.bind_eq_some_iff.1 h
      simp only [List.cons_append, replace, hnext, ih h]

end Instruction

namespace Program

/-- The instruction at a path: a place in the program, and from there on places in bodies. -/
def at? (p : Program) : List Nat → Option Instruction
  | [] => none
  | n :: path => p.block[n]?.bind fun i => i.at? path

def replace (p : Program) (new : Instruction) : List Nat → Program
  | [] => p
  | n :: path =>
    match p.block[n]? with
    | some i => ⟨p.block.set n (Instruction.replace new path i)⟩
    | none => p

variable {p : Program} {inner : Instruction} {path : List Nat}

theorem at?_append (h : p.at? path = some inner) (path' : List Nat) : p.at? (path ++ path') = inner.at? path' := by
  cases path with
  | nil => cases h
  | cons n path =>
    obtain ⟨i, hi, h⟩ := Option.bind_eq_some_iff.1 h
    rw [List.cons_append, at?, hi, Option.bind_some, Instruction.at?_append h]

theorem replace_append (h : p.at? path = some inner) (new : Instruction) (path' : List Nat) :
    p.replace new (path ++ path') = p.replace (Instruction.replace new path' inner) path := by
  cases path with
  | nil => cases h
  | cons n path =>
    obtain ⟨i, hi, h⟩ := Option.bind_eq_some_iff.1 h
    simp only [List.cons_append, replace, hi, Instruction.replace_append h]

end Program

/-! ## Conditionals without their bodies -/

namespace Instruction

def kindOf? (members : List (Option String × Json)) : Option Kind :=
  (Json.field? "type" members).bind (Kind.ofJson? true)

/-- The record of a conditional without its body. -/
inductive Shell where
  /-- An object with members before and after the body. -/
  | object (comparison : Comparison) (first last : List (Option String × Json))
    (isBranch : kindOf? (first ++ last) = some (.branch comparison))
  /-- A list of the type, the cursor and the body. -/
  | list (comparison : Comparison) (tag target : Json) (isBranch : Kind.ofJson? true tag = some (.branch comparison))

namespace Shell

def comparison : Shell → Comparison
  | .object comparison _ _ _ => comparison
  | .list comparison _ _ _ => comparison

/-- The record with this body. -/
def wrap (body : Json) : Shell → Json
  | .object _ first last _ => .object (first ++ (some "body", body) :: last)
  | .list _ tag target _ => .array [tag, target, body]

end Shell

variable {inBody : Bool} {kind : Kind} {values : List Json} {i : Instruction}

theorem Gives.kindOf?_eq {members : List (Option String × Json)} (h : Gives inBody (.object members) kind values) :
    kindOf? members = some kind := by
  cases h with
  | fields htype htag hvalues => rw [kindOf?, htype, Option.bind_some, Kind.ofJson?_inBody htag]

/-- However a record of a conditional is written, its body may be exchanged. -/
theorem Shell.gives_wrap (shell : Shell) {body : Json} (h : Gives inBody (shell.wrap body) kind values) :
    ∃ target, kind = .branch shell.comparison ∧ values = [target, body] ∧
      ∀ body', Gives inBody (shell.wrap body') (.branch shell.comparison) [target, body'] := by
  cases shell with
  | list comparison tag target isBranch =>
    cases h with
    | items htag =>
      have hkind := Kind.ofJson?_inBody htag
      rw [isBranch] at hkind
      cases hkind
      exact ⟨target, rfl, rfl, fun body' => .items htag⟩
  | object comparison first last isBranch =>
    have hkind := h.kindOf?_eq
    rw [kindOf?, Json.field?_insert_of_ne (by decide), ← kindOf?, isBranch] at hkind
    cases hkind
    cases h with
    | fields htype htag hvalues =>
      obtain ⟨target, rest, htarget, hrest, rfl⟩ := mapM_cons_eq_some_iff.1 hvalues
      obtain ⟨found, none, hbody, hnone, rfl⟩ := mapM_cons_eq_some_iff.1 hrest
      cases hnone
      obtain ⟨hnone, rfl⟩ := Json.field?_insert_self.1 hbody
      refine ⟨target, rfl, rfl, fun body' => ?_⟩
      rw [Json.field?_insert_of_ne (by decide)] at htype htarget
      have hbody' : Json.field? "body" (first ++ (some "body", body') :: last) = some body' :=
        Json.field?_insert_self.2 ⟨hnone, rfl⟩
      have htype' : Json.field? "type" (first ++ (some "body", body') :: last) = some _ :=
        (Json.field?_insert_of_ne (by decide) first body' last).trans htype
      have htarget' : Json.field? "target" (first ++ (some "body", body') :: last) = some target :=
        (Json.field?_insert_of_ne (by decide) first body' last).trans htarget
      exact .fields htype' htag (by simp [Kind.operands, htarget', hbody'])

theorem Shell.ofRecord?_wrap (shell : Shell) {body : Json} (h : ofRecord? inBody (shell.wrap body) = some i) :
    ∃ items cursor block, body = .array items ∧ items.mapM (ofRecord? true) = some block ∧
      i = .branch shell.comparison cursor block ∧
      ∀ items' block', items'.mapM (ofRecord? true) = some block' →
        ofRecord? inBody (shell.wrap (.array items')) = some (.branch shell.comparison cursor block') := by
  obtain ⟨kind, values, hgives, hoperands⟩ := ofRecord?_eq_some_iff.1 h
  obtain ⟨target, rfl, rfl, hwrap⟩ := shell.gives_wrap hgives
  obtain ⟨target', items, cursor, block, hvalues, hcursor, hitems, hi⟩ := ofOperands?_branch_eq_some_iff.1 hoperands
  cases hvalues
  refine ⟨items, cursor, block, rfl, hitems, hi, fun items' block' hitems' => ?_⟩
  rw [(hwrap (.array items')).ofRecord?_eq, ofOperands?_branch_eq_some_iff]
  exact ⟨target, items', cursor, block', rfl, hcursor, hitems', rfl⟩

end Instruction

/-! ## Places -/

/-- A program of which one record is missing. -/
inductive Place where
  /-- Among the records of the program. -/
  | top (before after : List Json)
  /-- Among the records of a body, whose conditional stands at another place. -/
  | body (outer : Place) (shell : Instruction.Shell) (before after : List Json)

namespace Place

/-- The program with this record at the place. -/
def fill : Place → Json → Json
  | .top before after, record => .array (before ++ record :: after)
  | .body outer shell before after, record => outer.fill (shell.wrap (.array (before ++ record :: after)))

/-- The way to the instruction of the record. -/
def path : Place → List Nat
  | .top before _ => [before.length]
  | .body outer _ before _ => outer.path ++ [before.length]

def isInBody : Place → Bool
  | .top _ _ => false
  | .body _ _ _ _ => true

/-- If a program is read with a record at a place, the instruction of the record stands at the path of the place,
and another record there changes this instruction only. -/
theorem ofJson?_fill : ∀ (place : Place) {record : Json} {p : Program},
    Program.ofJson? (place.fill record) = some p →
      ∃ i, Instruction.ofRecord? place.isInBody record = some i ∧ p.at? place.path = some i ∧
        ∀ record' i', Instruction.ofRecord? place.isInBody record' = some i' →
          Program.ofJson? (place.fill record') = some (p.replace i' place.path)
  | .top before after, record, p, h => by
    obtain ⟨items, heq, hblock⟩ := Program.ofJson?_eq_some_iff.1 h
    cases heq
    obtain ⟨i, hi, hat, hset⟩ := mapM_focus hblock
    refine ⟨i, hi, by simp [path, Program.at?, hat, Instruction.at?], fun record' i' hi' => ?_⟩
    rw [Program.ofJson?_eq_some_iff]
    refine ⟨_, rfl, ?_⟩
    simpa [path, Program.replace, hat, Instruction.replace] using hset record' i' hi'
  | .body outer shell before after, record, p, h => by
    -- The conditional around the body stands at the outer place, and its body is exchanged as a whole.
    obtain ⟨conditional, hconditional, hat, houter⟩ := ofJson?_fill outer h
    obtain ⟨items, cursor, block, heq, hblock, rfl, hwrap⟩ := shell.ofRecord?_wrap hconditional
    cases heq
    obtain ⟨i, hi, hitem, hset⟩ := mapM_focus hblock
    refine ⟨i, hi, ?_, fun record' i' hi' => ?_⟩
    · rw [path, Program.at?_append hat]
      simp [Instruction.at?, hitem]
    · have hfilled := houter _ _ (hwrap _ _ (hset record' i' hi'))
      rw [fill, path, Program.replace_append hat]
      simpa [Instruction.replace, hitem] using hfilled

/-! ## Validity -/

theorem isValid_wrap (shell : Instruction.Shell) {body : Json} (h : (shell.wrap body).IsValid) :
    body.IsValid ∧ ∀ body', body'.IsValid → (shell.wrap body').IsValid := by
  cases shell with
  | object comparison first last isBranch =>
    simp only [Instruction.Shell.wrap, Json.isValid_object_iff, List.forall_mem_append, List.forall_mem_cons] at h ⊢
    exact ⟨h.2.1.2, fun body' hbody' => ⟨h.1, ⟨rfl, hbody'⟩, h.2.2⟩⟩
  | list comparison tag target isBranch =>
    simp only [Instruction.Shell.wrap, Json.isValid_array_iff, List.forall_mem_cons] at h ⊢
    exact ⟨h.2.2.1, fun body' hbody' => ⟨h.1, h.2.1, hbody', h.2.2.2⟩⟩

/-- A valid program stays valid if a valid record comes in the place of another. -/
theorem isValid_fill : ∀ (place : Place) {record : Json}, (place.fill record).IsValid →
    record.IsValid ∧ ∀ record', record'.IsValid → (place.fill record').IsValid
  | .top before after, record, h => by
    simp only [fill, Json.isValid_array_iff, List.forall_mem_append, List.forall_mem_cons] at h ⊢
    exact ⟨h.2.1, fun record' hrecord' => ⟨h.1, hrecord', h.2.2⟩⟩
  | .body outer shell before after, record, h => by
    obtain ⟨hconditional, houter⟩ := isValid_fill outer h
    obtain ⟨hbody, hwrap⟩ := isValid_wrap shell hconditional
    simp only [Json.isValid_array_iff, List.forall_mem_append, List.forall_mem_cons] at hbody hwrap
    refine ⟨hbody.2.1, fun record' hrecord' => houter _ (hwrap _ ?_)⟩
    simp only [Json.isValid_array_iff, List.forall_mem_append, List.forall_mem_cons]
    exact ⟨hbody.1, hrecord', hbody.2.2⟩

end Place

/-! ## Loading -/

namespace Program

variable {text : String} {j : Json} {p : Program}

theorem isValid_of_load (h : load text = .ok p) (hparse : Json.parse? text = some j) :
    j.IsValid ∧ ofJson? j = some p := by
  obtain ⟨j', hparse', hacceptable, hj⟩ := load_eq_ok_iff.1 h
  obtain rfl : j' = j := Option.some.inj (hparse'.symm.trans hparse)
  rw [Json.isAcceptable, Bool.and_eq_true] at hacceptable
  exact ⟨Json.isValid_of_parse? hparse hacceptable.1, hj⟩

/-- A text of a valid value that nests within the limit loads. -/
theorem load_of_isValid (hparse : Json.parse? text = some j) (hvalid : j.IsValid) (hdepth : j.depth ≤ 127)
    (hj : ofJson? j = some p) : load text = .ok p := by
  refine load_eq_ok_iff.2 ⟨j, hparse, ?_, hj⟩
  rw [hvalid.isAcceptable, decide_eq_true_eq]
  exact hdepth

end Program

end SeatMachine
