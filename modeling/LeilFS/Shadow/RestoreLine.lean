/-
Module: LeilFS.Shadow.RestoreLine
Purpose: How far the reader of a changelog line looks: the macros that move one pointer, the
  entries made of them, and the lines in which no byte behind the end is read.
Trusted boundary: none
-/
import LeilFS.Lib.LogText

namespace LeilFS.Shadow

/-!
The text at the pointer is what is left of the line.  Behind it stands the NUL, which is no
delimiter, blank, sign or digit.  The values that are read are left out: they do not move the
pointer.
-/

/-- A line is rejected with an error, or a byte behind its end is read. -/
inductive Fault where
  | rejected
  | overrun
deriving DecidableEq

/-- The text that is left, or what went wrong. -/
abbrev Reading := Except Fault (List Char)

/-- What a field ends with. -/
inductive Delim where
  | comma | closing
deriving DecidableEq

/-- The character itself. -/
def Delim.char : Delim → Char
  | .comma => ','
  | .closing => ')'

/-- [SPEC restore.cc:40-46] -/
def eat (expected : Char) : List Char → Reading
  | [] => .error .rejected
  | c :: text => if c = expected then .ok text else .error .rejected

/-- What `strtoul` passes over in front of a number. -/
def isSpace (c : Char) : Bool := c = ' ' || '\t' ≤ c && c ≤ '\r'

/-- `GETU32` and the like: `strtoul`, which leaves the pointer where it is without digits. -/
def getNumber (ptr : List Char) : Reading :=
  let blank := ptr.dropWhile isSpace
  let digits := if blank.head?.any fun c => c = '+' || c = '-' then blank.tail else blank
  .ok (if digits.head?.any Char.isDigit then digits.dropWhile Char.isDigit else ptr)

def isHex (c : Char) : Bool := (LogText.hexDigit c).isSome

/-- The loop of `GETNAME`, with room for 255 characters, and the one of `GETPATH` and `GETDATA`
[SPEC restore.cc:48-195].  The NUL is a character like others there. -/
def getQuoted (delim : Delim) : Option Nat → List Char → Reading
  | room, [] => if room = some 0 then .ok [] else .error .overrun
  | room, c :: text =>
      if c = delim.char ∨ room = some 0 then .ok (c :: text)
      else if c = '%' then
        match text with
        | [] => .error .overrun
        -- The second digit would be the NUL.
        | [_] => .error .rejected
        | high :: low :: rest =>
            if isHex high ∧ isHex low then getQuoted delim (room.map (· - 1)) rest
            else .error .rejected
      else getQuoted delim (room.map (· - 1)) text

/-- The steps of the `do_` functions. -/
inductive Token where
  | eat (expected : Char)
  | number
  /-- `GETCHAR`, which stays at the end of the line. -/
  | letter
  /-- The type of a node and a comma; the pointer goes on from the type, whatever it is. -/
  | type
  /-- `GETNAME` and the delimiter. -/
  | name (delim : Delim)
  /-- `GETPATH` or `GETDATA`, and the delimiter. -/
  | path (delim : Delim)
  /-- A number that is there when the character is. -/
  | optional (expected : Char)
  /-- A number behind a comma, unless the bracket is closed. -/
  | unlessClosed
  /-- The word of the entry. -/
  | word (length : Nat)
  /-- An entry that is unknown or not supported. -/
  | refuse

/-- A field that is read up to its end. -/
def Token.delim : Token → Option Delim
  | .name delim | .path delim => some delim
  | _ => none

/-- [SPEC restore.cc:40-204] -/
def Token.read : Token → List Char → Reading
  | .eat expected, ptr => Shadow.eat expected ptr
  | .number, ptr => getNumber ptr
  | .letter, ptr => .ok ptr.tail
  | .type, ptr => if ptr = [] then .error .overrun else Shadow.eat ',' ptr.tail
  | .name delim, ptr => getQuoted delim (some 255) ptr >>= Shadow.eat delim.char
  | .path delim, ptr => getQuoted delim none ptr >>= Shadow.eat delim.char
  | .optional expected, ptr =>
      if ptr.head? = some expected then Shadow.eat expected ptr >>= getNumber else .ok ptr
  | .unlessClosed, ptr =>
      if ptr.head? = some ')' then .ok ptr else Shadow.eat ',' ptr >>= getNumber
  | .word length, ptr => .ok (ptr.drop length)
  | .refuse, _ => .error .rejected

/-- The fields of an entry are read one after the other, up to the first error. -/
def readAll (tokens : List Token) (ptr : List Char) : Reading :=
  tokens.foldlM (fun ptr token => token.read ptr) ptr

/-! ## The entries -/

/-- Some numbers with commas between them. -/
def numbers : Nat → List Token
  | 0 => []
  | 1 => [.number]
  | n + 1 => .number :: .eat ',' :: numbers n

/-- Arguments stand in parentheses. -/
def args (tokens : List Token) : List Token := .eat '(' :: tokens ++ [.eat ')']

/-- What an operation returned stands behind a colon. -/
def results (n : Nat) : List Token := .eat ':' :: numbers n

/-- [SPEC restore.cc:206-224] -/
def doAccess := args (numbers 1)

/-- [SPEC restore.cc:226-249] -/
def doAppend := args (numbers 2)

/-- [SPEC restore.cc:251-274] -/
def doAcquire := args (numbers 2)

/-- [SPEC restore.cc:276-308] -/
def doAttr := args (numbers 6)

/-- [SPEC restore.cc:310-319] -/
def doChecksum : List Token := [.eat '(', .name .closing] ++ results 1

/-- [SPEC restore.cc:321-360] -/
def doCreate := args ([.number, .eat ',', .name .comma, .type] ++ numbers 4) ++ results 1

/-- [SPEC restore.cc:362-370] -/
def doSession := args [] ++ results 1

/-- [SPEC restore.cc:372-392] -/
def doIncversion := args (numbers 1)

/-- [SPEC restore.cc:394-422] -/
def doLink : List Token := .eat '(' :: numbers 2 ++ [.eat ',', .name .closing]

/-- [SPEC restore.cc:424-458] -/
def doLength := args (numbers 2 ++ [.unlessClosed])

/-- [SPEC restore.cc:460-494] -/
def doMove : List Token :=
  [.eat '(', .number, .eat ',', .name .comma, .number, .eat ',', .name .closing] ++
    results 1

/-- [SPEC restore.cc:496-553] -/
def doLockOp := args (numbers 7)

/-- [SPEC restore.cc:555-588] -/
def doRemovePendingOp := args (numbers 5)

/-- [SPEC restore.cc:590-617] -/
def doLockClearSession := args (numbers 3)

/-- [SPEC restore.cc:619-644] -/
def doLockUnlockInode := args (numbers 2)

/-- [SPEC restore.cc:646-665] -/
def doPurge := args (numbers 1)

/-- [SPEC restore.cc:667-690] -/
def doRelease := args (numbers 2)

/-- [SPEC restore.cc:692-718] -/
def doRepair := args (numbers 2) ++ results 1

/-- [SPEC restore.cc:720-759] -/
def doSeteattr := args (numbers 4) ++ results 3

/-- [SPEC restore.cc:761-784] -/
def doSetgoal := args (numbers 4) ++ [.optional ':']

/-- [SPEC restore.cc:786-797] -/
def doSetpath : List Token := [.eat '(', .number, .eat ',', .path .closing]

/-- [SPEC restore.cc:799-824] -/
def doSettrashtime := args (numbers 4) ++ [.optional ':']

/-- [SPEC restore.cc:826-856] -/
def doSetxattr := args [.number, .eat ',', .name .comma, .path .comma, .number]

/-- [SPEC restore.cc:858-894] -/
def doDeleteacl := args [.number, .eat ',', .letter]

/-- [SPEC restore.cc:896-925] -/
def doSetacl : List Token := [.eat '(', .number, .eat ',', .letter, .eat ',', .path .closing]

/-- [SPEC restore.cc:927-952] -/
def doSetrichacl : List Token := [.eat '(', .number, .eat ',', .path .closing]

/-- [SPEC restore.cc:954-986] -/
def doSetquota := args ([.letter, .eat ',', .letter, .eat ',', .letter, .eat ','] ++ numbers 2)

/-- [SPEC restore.cc:988-991] -/
def doSnapshot : List Token := [.refuse]

/-- [SPEC restore.cc:993-1010] -/
def doCloneNode := args (numbers 3 ++ [.eat ',', .name .comma, .number])

/-- [SPEC restore.cc:1012-1050] -/
def doSymlink := args ([.number, .eat ',', .name .comma, .path .comma] ++ numbers 2) ++ results 1

/-- [SPEC restore.cc:1052-1058] -/
def doUndel := args (numbers 1)

/-- [SPEC restore.cc:1060-1085] -/
def doUnlink : List Token := [.eat '(', .number, .eat ',', .name .closing] ++ results 1

/-- [SPEC restore.cc:1087-1094] -/
def doUnlock := args (numbers 1)

/-- [SPEC restore.cc:1096-1102] -/
def doNextchunkid := args (numbers 1)

/-- [SPEC restore.cc:1105-1137] -/
def doTrunc := args (numbers 2 ++ [.optional ',']) ++ results 1

/-- [SPEC restore.cc:1139-1180] -/
def doWrite := args (numbers 2 ++ [.optional ',', .optional ',']) ++ results 1

/-- The words that entries start with, in the order in which they are tried. -/
def entries : List (String × List Token) :=
  [("ACCESS", doAccess), ("ATTR", doAttr), ("APPEND", doAppend), ("ACQUIRE", doAcquire),
    ("AQUIRE", doAcquire), ("CHECKSUM", doChecksum), ("CLONE", doCloneNode),
    ("CREATE", doCreate), ("CUSTOMER", doSession), ("CLRLCK", doLockClearSession),
    ("DELETEACL", doDeleteacl), ("FLCKINODE", doLockUnlockInode), ("FLCK", doLockOp),
    ("INCVERSION", doIncversion), ("LENGTH", doLength), ("LINK", doLink), ("MOVE", doMove),
    ("NEXTCHUNKID", doNextchunkid), ("PURGE", doPurge), ("RELEASE", doRelease),
    ("REPAIR", doRepair), ("RMPLOCK", doRemovePendingOp), ("SESSION", doSession),
    ("SETACL", doSetacl), ("SETEATTR", doSeteattr), ("SETGOAL", doSetgoal),
    ("SETPATH", doSetpath), ("SETQUOTA", doSetquota), ("SETTRASHTIME", doSettrashtime),
    ("SETXATTR", doSetxattr), ("SNAPSHOT", doSnapshot), ("SYMLINK", doSymlink),
    ("SETRICHACL", doSetrichacl), ("TRUNC", doTrunc), ("UNLINK", doUnlink), ("UNDEL", doUndel),
    ("UNLOCK", doUnlock), ("WRITE", doWrite)]

/-- The entry whose word the text starts with. -/
def entryTokens (ptr : List Char) : List Token :=
  match entries.find? fun entry => entry.1.toList.isPrefixOf ptr with
  | some (word, tokens) => .word word.toList.length :: tokens
  | none => [.refuse]

/-- A line starts with the time of its change. -/
def lineStart : List Token := [.eat ':', .eat ' ', .number, .eat '|']

/-- [SPEC restore.cc:1182-1341] -/
def restoreLine (line : List Char) : Reading :=
  readAll lineStart line >>= fun ptr => readAll (entryTokens ptr) ptr

/-! ## Where fields end -/

/-- A text, cut into characters and escapes, without a percent sign at its end. -/
def pieces : List Char → List (List Char)
  | [] => []
  | c :: text =>
      if c = '%' then
        match text with
        | high :: low :: rest => [c, high, low] :: pieces rest
        | [high] => [[c, high]]
        | [] => []
      else [c] :: pieces text

/-- The delimiter, or what looks like an escape and is none. -/
def Stops (delim : Delim) : List Char → Prop
  | [c] => c = delim.char
  | [_, high, low] => ¬(isHex high ∧ isHex low)
  | _ => True

/-- Something stops a field before the line ends, or there is no room for more. -/
def Closes (delim : Delim) : Option Nat → List (List Char) → Prop
  | room, [] => room = some 0
  | room, piece :: rest => room = some 0 ∨ Stops delim piece ∨ Closes delim (room.map (· - 1)) rest

/-- The step does not leave the line. -/
def Token.Closed : Token → List Char → Prop
  | .name delim, ptr => Closes delim (some 255) (pieces ptr)
  | .path delim, ptr => Closes delim none (pieces ptr)
  | .type, ptr => ptr ≠ []
  | _, _ => True

/-- The steps that are taken, with the text at the pointer. -/
def Reaches : List Token → List Char → Token → List Char → Prop
  | [], _, _, _ => False
  | first :: tokens, ptr, token, rest =>
      token = first ∧ rest = ptr ∨
        ∃ next, first.read ptr = .ok next ∧ Reaches tokens next token rest

/-- The steps of an entry. -/
def LineReaches (line : List Char) (token : Token) (rest : List Char) : Prop :=
  ∃ ptr, readAll lineStart line = .ok ptr ∧ Reaches (entryTokens ptr) ptr token rest

variable {delim : Delim} {room : Option Nat} {text ptr rest : List Char} {tokens : List Token}

/-- A field leaves the line when nothing closes it. -/
theorem getQuoted_overrun_iff :
    getQuoted delim room text = .error .overrun ↔ ¬Closes delim room (pieces text) := by
  have percent : '%' ≠ delim.char := by cases delim <;> decide
  fun_induction getQuoted delim room text with
  | case1 => simp [pieces, Closes]
  | case2 room more => simpa [pieces, Closes] using more
  | case3 room c text stop =>
    rcases stop with rfl | rfl
    · rw [pieces.eq_def]
      simp [percent.symm, Closes, Stops]
    · cases pieces (c :: text) <;> simp [Closes]
  | case4 room other => simpa [pieces, Closes] using (not_or.mp other).2
  | case5 => simp [pieces, Closes, Stops]
  | case6 room high low rest hex other ih => simp [pieces, Closes, Stops, ih, hex, not_or.mp other]
  | case7 room high low rest bad => simp [pieces, Closes, Stops, bad]
  | case8 room c text other plain ih =>
    rw [pieces.eq_def]
    simp [Closes, Stops, ih, plain, not_or.mp other]

/-- Behind a field its delimiter is eaten. -/
theorem mem_of_getQuoted (read : (getQuoted delim room text >>= eat delim.char) = .ok ptr) :
    delim.char ∈ text := by
  fun_induction getQuoted delim room text with
  | case1 | case2 | case4 | case5 | case7 => cases read
  | case3 room c text =>
    by_cases eq : c = delim.char
    · simp [eq]
    · change eat delim.char (c :: text) = _ at read
      rw [eat, if_neg eq] at read
      cases read
  | case6 room high low rest hex other ih => simp [ih read]
  | case8 room c text other plain ih => simp [ih read]

/-! ## Entries -/

/-- A single character is never read behind the end: the NUL there is none of those expected. -/
theorem eat_ne_overrun (c : Char) (ptr : List Char) : eat c ptr ≠ .error .overrun := by
  cases ptr with
  | nil => exact nofun
  | cons first text =>
    rw [eat]
    split <;> exact nofun

/-- A step fails to read what the next one asks for. -/
theorem bind_overrun_iff {r : Reading} {f : List Char → Reading} : (r >>= f) = .error .overrun ↔
      r = .error .overrun ∨ ∃ next, r = .ok next ∧ f next = .error .overrun := by
  cases r with
  | ok next => simp [bind, Except.bind]
  | error fault => simp [bind, Except.bind]

theorem Token.read_overrun_iff (token : Token) :
    token.read ptr = .error .overrun ↔ ¬token.Closed ptr := by
  cases token with
  | name | path => simp [read, Closed, bind_overrun_iff, getQuoted_overrun_iff, eat_ne_overrun]
  | type | eat | letter | word | refuse => simp [read, Closed, eat_ne_overrun]
  | number => simp [read, Closed, getNumber]
  | optional | unlessClosed =>
    simp only [read, Closed, not_true, iff_false]
    split <;> simp [bind_overrun_iff, eat_ne_overrun, getNumber]

theorem readAll_nil : readAll [] ptr = .ok ptr := rfl

theorem readAll_cons (first : Token) :
    readAll (first :: tokens) ptr = (first.read ptr >>= readAll tokens) := rfl

/-- The end is passed exactly in a field that is reached and not closed. -/
theorem readAll_overrun_iff : readAll tokens ptr = .error .overrun ↔
      ∃ token rest, Reaches tokens ptr token rest ∧ ¬token.Closed rest := by
  induction tokens generalizing ptr with
  | nil => exact ⟨nofun, fun ⟨_, _, reaches, _⟩ => reaches.elim⟩
  | cons first tokens ih =>
    rw [readAll_cons, bind_overrun_iff, first.read_overrun_iff]
    simp only [Reaches, ih]
    constructor
    · rintro (leaves | ⟨next, read, token, rest, reaches, leaves⟩)
      · exact ⟨first, ptr, .inl ⟨rfl, rfl⟩, leaves⟩
      · exact ⟨token, rest, .inr ⟨next, read, reaches⟩, leaves⟩
    · rintro ⟨token, rest, ⟨rfl, rfl⟩ | ⟨next, read, reaches⟩, leaves⟩
      · exact .inl leaves
      · exact .inr ⟨next, read, token, rest, reaches, leaves⟩

/-- A field without its end cannot be accepted. -/
theorem readAll_ne_ok {token : Token} (reaches : Reaches tokens ptr token rest)
    (quoted : token.delim = some delim) (absent : delim.char ∉ rest) (final : List Char) :
    readAll tokens ptr ≠ .ok final := by
  induction tokens generalizing ptr with
  | nil => exact reaches.elim
  | cons first tokens ih =>
    rw [readAll_cons]
    rcases reaches with ⟨rfl, rfl⟩ | ⟨next, read, reaches⟩
    · cases read : token.read rest with
      | error => exact nofun
      | ok next =>
        cases token with
        | name | path =>
          cases quoted
          exact absurd (mem_of_getQuoted read) absent
        | _ => cases quoted
    · rw [read]
      exact ih reaches

/-- The two demands on an entry come down to one on its fields. -/
theorem readAll_within_iff : (readAll tokens ptr ≠ .error .overrun ∧
      ∀ token rest delim, Reaches tokens ptr token rest → token.delim = some delim →
        delim.char ∉ rest → readAll tokens ptr = .error .rejected) ↔
      ∀ token rest, Reaches tokens ptr token rest → token.Closed rest := by
  constructor
  · rintro ⟨ne, -⟩ token rest reaches
    by_contra leaves
    exact ne (readAll_overrun_iff.mpr ⟨token, rest, reaches, leaves⟩)
  · intro closed
    have ne : readAll tokens ptr ≠ .error .overrun := fun overrun =>
      have ⟨token, rest, reaches, leaves⟩ := readAll_overrun_iff.mp overrun
      leaves (closed token rest reaches)
    refine ⟨ne, fun token rest delim reaches quoted absent => ?_⟩
    match read : readAll tokens ptr with
    | .ok final => exact absurd read (readAll_ne_ok reaches quoted absent final)
    | .error .overrun => exact absurd read ne
    | .error .rejected => rfl

/-- No byte behind the end is read, and a field that runs into the end is an error, exactly when
every field that is reached is closed and the type of a new node is there. -/
theorem restoreLine_within_iff (line : List Char) :
    (restoreLine line ≠ .error .overrun ∧
      ∀ token rest delim, LineReaches line token rest → token.delim = some delim →
        delim.char ∉ rest → restoreLine line = .error .rejected) ↔
      ∀ token rest, LineReaches line token rest → token.Closed rest := by
  have within : readAll lineStart line ≠ .error .overrun := by
    simp [lineStart, readAll_nil, readAll_cons, bind_overrun_iff, Token.read, eat_ne_overrun,
      getNumber]
  unfold restoreLine LineReaches
  cases start : readAll lineStart line with
  | ok ptr => simpa [bind, Except.bind] using readAll_within_iff
  | error fault => simpa [bind, Except.bind, start] using within

/-- An entry is read once its word is known. -/
theorem restoreLine_eq {line : List Char} {n : Nat} (start : readAll lineStart line = .ok ptr)
    (found : entryTokens ptr = .word n :: tokens) (behind : ptr.drop n = rest) :
    restoreLine line = readAll tokens rest := by
  subst behind
  rw [restoreLine, start]
  show readAll (entryTokens ptr) ptr = _
  rw [found]
  rfl

/-- A path runs into the end of the line. -/
theorem restoreLine_overrun : restoreLine ": 5|SETPATH(7,a".toList = .error .overrun := by
  have start : readAll lineStart ": 5|SETPATH(7,a".toList = .ok "SETPATH(7,a".toList := rfl
  have found : entryTokens "SETPATH(7,a".toList = .word 7 :: doSetpath := rfl
  have behind : "SETPATH(7,a".toList.drop 7 = "(7,a".toList := rfl
  rw [restoreLine_eq start found behind]
  rfl

end LeilFS.Shadow
