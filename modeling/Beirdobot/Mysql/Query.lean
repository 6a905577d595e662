import Mathlib.Algebra.Group.Int.Defs
import Beirdobot.Libc
import Mathlib.Data.Int.Notation

/-!
# The text of a query

A transcription of `db_quote`, of the binding functions and of the part of
`db_query` in `mysql.c` that writes the text it gives to `mysql_query`.  A function
returns `none` where the C code does not return or follows a wrong pointer; memory
is always allocated.
-/

namespace Beirdobot.Mysql

/-- `MAX_STRING_LENGTH` -/
def maxStringLength : ℕ := 1024

/-- The characters that `db_quote` escapes. -/
def isSpecial (c : Char) : Bool := c == '\'' || c == '"' || c == '\\'

/-- The second loop of `db_quote`. -/
def quoteLoop : CString → CString
  | [] => []
  | c :: s => if isSpecial c then '\\' :: c :: quoteLoop s else c :: quoteLoop s

/-- `db_quote` -/
def dbQuote (string : CString) : CString :=
  if string.countP isSpecial = 0 then string else quoteLoop string

/-- The `enum_field_types` that the code tells apart. -/
inductive FieldType where
  | tiny
  | short
  | long
  | longlong
  | string
  | varString
  | tinyBlob
  | blob
  | other
deriving DecidableEq, Repr

/-- What the `buffer` of an argument points to. -/
inductive Buffer where
  | null
  | integer (value : ℤ)
  | text (s : CString)
deriving DecidableEq, Repr

/-- `MYSQL_BIND`, where `isNull` is what `is_null` points to. -/
structure MysqlBind where
  bufferType : FieldType
  buffer : Buffer
  isNull : Bool
deriving DecidableEq, Repr

/-- A cleared `MYSQL_BIND`. -/
def MysqlBind.cleared : MysqlBind := ⟨.other, .null, false⟩

/-- `bind_numeric`; the value is cut to the size of the type. -/
def bindNumeric (data : MysqlBind) (value : ℤ) (type : FieldType) : MysqlBind :=
  let data := { data with bufferType := type }
  match type with
  | .tiny => { data with buffer := .integer (value.bmod (2 ^ 8)) }
  | .short => { data with buffer := .integer (value.bmod (2 ^ 16)) }
  | .long => { data with buffer := .integer (value.bmod (2 ^ 32)) }
  | .longlong => { data with buffer := .integer (value.bmod (2 ^ 64)) }
  | _ => { data with isNull := true }

/-- `bind_string` -/
def bindString (data : MysqlBind) (value : Option CString) (type : FieldType) : MysqlBind :=
  let data := { data with bufferType := type }
  match type with
  | .varString | .blob =>
      match value with
      | none => { data with isNull := true }
      | some value => { data with buffer := .text value }
  | _ => { data with isNull := true }

/-- `bind_null_blob`: the pointer is passed along, the query sees a null. -/
def bindNullBlob (_ : MysqlBind) (value : Buffer) : MysqlBind := ⟨.blob, value, true⟩

/-- `%d` -/
def decimal (value : ℤ) : CString :=
  if value < 0 then '-' :: Nat.toDigits 10 value.natAbs else Nat.toDigits 10 value.natAbs

/-- `%c`: the character 0 leaves an empty string. -/
def charText (value : ℤ) : CString :=
  let c := (value % 2 ^ 8).toNat
  if c = 0 then [] else [Char.ofNat c]

/-- `strncat` -/
def strncat (dst src : CString) (n : ℕ) : CString := dst ++ src.take n

/-- `strchr`: what is before the first `c`, and what follows it. -/
def strchr (c : Char) : CString → Option (CString × CString)
  | [] => none
  | d :: s =>
      if d = c then some ([], s)
      else (strchr c s).map fun (before, rest) ↦ (d :: before, rest)

/-- What the `switch` over the type leaves in `string`, `buf` and `len`. -/
structure Piece where
  string : Option CString
  buf : CString
  len : ℕ

/-- What `snprintf` leaves of a number; 128 characters are enough. -/
def Piece.number (value : ℤ) : Piece := ⟨none, decimal value, (decimal value).length⟩

/-- The `switch`; `default` gives no piece. -/
def argPiece (arg : MysqlBind) : Option (Option Piece) :=
  match arg.bufferType, arg.buffer with
  | .tiny, .integer value =>
      let string := dbQuote (charText value)
      some (some ⟨some string, charText value, string.length + 2⟩)
  | .short, .integer value => some (some (.number (value.bmod (2 ^ 16))))
  | .long, .integer value => some (some (.number (value.bmod (2 ^ 32))))
  | .longlong, .integer value => some (some (.number (value.bmod (2 ^ 64))))
  | .string, .text s | .varString, .text s | .tinyBlob, .text s | .blob, .text s =>
      some (some ⟨some (dbQuote s), [], (dbQuote s).length + 2⟩)
  | .string, .null | .varString, .null | .tinyBlob, .null | .blob, .null =>
      some (some ⟨none, [], 2⟩)
  | .other, _ => some none
  | _, _ => none

/-- The `if` after the `switch`. -/
def Piece.append (piece : Piece) (sqlbuf : CString) : CString :=
  if piece.string.isSome ∨ piece.buf = [] then
    let sqlbuf := sqlbuf ++ ['\'']
    let sqlbuf := match piece.string with
      | none => sqlbuf
      | some string => strncat sqlbuf string piece.len
    sqlbuf ++ ['\'']
  else strncat sqlbuf piece.buf piece.len

/-- How an argument leaves the buffer. -/
inductive Appended where
  | overflow
  | skipped
  | done (buflen : ℕ) (sqlbuf : CString)

/-- The part of the loop that writes one argument. -/
def appendArg (arg : MysqlBind) (buflen : ℕ) (sqlbuf : CString) : Option Appended :=
  if arg.isNull then
    if buflen < 4 then some .overflow
    else some (.done (buflen - 4) (strncat sqlbuf ['N', 'U', 'L', 'L'] 4))
  else do
    match ← argPiece arg with
    | none => some .skipped
    | some piece =>
        if buflen < piece.len then some .overflow
        else some (.done buflen (piece.append sqlbuf))

/-- What `db_query` does: it gives up, or hands a text to `mysql_query`. -/
inductive Outcome where
  | overflow
  | query (text : CString)
deriving DecidableEq, Repr

/-- The loop of `db_query`; no arguments are a null pointer. -/
def dbQueryLoop (argCount : ℕ) : ℕ → CString → Option (List MysqlBind) → ℕ → ℕ → CString →
    Option Outcome
  | 0, _, _, _, _, _ => none
  | fuel + 1, query, args, count, buflen, sqlbuf =>
      match strchr '?' query, args with
      | none, _ => some (.query (strncat sqlbuf query buflen))
      | some _, none =>
          dbQueryLoop argCount fuel query none count buflen (strncat sqlbuf query buflen)
      | some (before, query), some args =>
          let count := count + 1
          if buflen < before.length then some .overflow
          else
            let sqlbuf := strncat sqlbuf before before.length
            if argCount < count then some (.query sqlbuf)
            else
              match args with
              | [] => none
              | arg :: rest => do
                  match ← appendArg arg buflen sqlbuf with
                  | .overflow => some .overflow
                  | .skipped => dbQueryLoop argCount fuel query (some args) count buflen sqlbuf
                  | .done buflen sqlbuf =>
                      dbQueryLoop argCount fuel query (some rest) count buflen sqlbuf

/-- The text that `db_query` sends. -/
def dbQuery (fuel : ℕ) (query : CString) (args : Option (List MysqlBind)) (argCount : ℕ) :
    Option Outcome :=
  dbQueryLoop argCount fuel query args 0 (maxStringLength - 1) []

/-- `QueryTable`: the patterns, in the pieces of the source. -/
def queryPieces : List (List String) :=
  [["SELECT `serverid`, `server`, `port`, `password`, `nick`, `username`, ",
      "`realname`, `nickserv`, `nickservmsg`, `floodInterval`, `floodMaxTime`, ",
      "`floodBuffer`, `floodMaxLine`, `enabled` FROM `servers` ", "ORDER BY `serverid`"],
    ["SELECT `chanid`, `channel`, `url`, `notifywindow`, `cmdChar`, `enabled` ",
      "FROM `channels` WHERE `serverid` = ? ORDER BY `chanid`"],
    ["INSERT INTO `irclog` (`chanid`, `timestamp`, `nick`, `msgtype`, ",
      "`message`) VALUES ( ?, ?, ?, ?, ? )"],
    ["SELECT * FROM `nicks` WHERE `chanid` = ? AND `nick` = ?"],
    ["UPDATE `nicks` SET `lastseen` = ?, `present` = ? WHERE `chanid` = ? ", "AND `nick` = ?"],
    ["INSERT INTO `nicks` (`lastseen`, `present`, `chanid`, `nick`, ",
      "`lastnotice`) VALUES ( ?, ?, ?, ?, 0 )"],
    ["UPDATE `nicks` SET `present` = 0 WHERE `chanid` = ?"],
    ["SELECT DISTINCT `nicks`.`chanid` FROM `nicks`, `channels` ",
      "WHERE `nicks`.`chanid` = `channels`.`chanid` AND ",
      "`channels`.`serverid` = ? AND `nicks`.`nick` = ? AND ", "`nicks`.`present` = 1"],
    ["SELECT `lastnotice` FROM `nicks` WHERE `chanid` = ? AND `nick` = ? AND ",
      "`lastnotice` <= ? AND `present` = 1"],
    ["INSERT INTO `nickhistory` ( `chanid`, `nick`, `histType`, `timestamp` )",
      " VALUES ( ?, ?, ?, ? )"],
    ["UPDATE `nicks` SET `lastnotice` = ? WHERE `chanid` = ? AND `nick` = ?"],
    ["SELECT `pluginName`, `libName`, `preload`, `arguments` FROM `plugins`"],
    ["SELECT UNIX_TIMESTAMP(NOW()) - `lastseen`, `present` ",
      "FROM `nicks` WHERE `chanid` = ? AND `nick` = ?"],
    ["SELECT `value` FROM `settings` WHERE `name` = ? LIMIT 1"],
    ["SELECT `value` FROM `settings` WHERE `name` = ? LIMIT 1"],
    ["UPDATE `settings` SET `value` = ? WHERE `name` = ?"],
    ["INSERT INTO `settings` (`name`, `value`) VALUES ( ?, ? )"],
    ["SELECT `username`, `digest`, `seed`, `key`, `keyIndex` FROM `userauth` ",
      "WHERE `username` = ? LIMIT 1"],
    ["SELECT * FROM `userauth` WHERE `username` = ? LIMIT 1"],
    ["UPDATE `userauth` SET `digest` = ?, `seed` = ?, `key` = ?, ",
      "`keyIndex` = ? WHERE `username` = ?"],
    ["INSERT INTO `userauth` (`username`, `digest`, `seed`, `key`, ",
      "`keyIndex`) VALUES ( ?, ?, ?, ?, ? )"],
    ["SELECT `pluginName` FROM `plugins` WHERE `pluginName` = ?"],
    ["INSERT INTO `plugins` ( `pluginName`, `libName`, `preload`, ",
      "`arguments`) VALUES ( ?, ?, ?, ? )"],
    ["SELECT `name`, `value` FROM `settings` ORDER BY `name` ASC"],
    ["UPDATE `channels` SET `serverid` = ?, `channel` = ?, ",
      "`url` = ?, `notifywindow` = ?, `cmdChar` = ?, `enabled` = ? ", "WHERE `chanid` = ?"],
    ["UPDATE `servers` SET `server` = ?, `port` = ?, `password` = ?, ",
      "`nick` = ?, `username` = ?, `realname` = ?, `nickserv` = ?, ",
      "`nickservmsg` = ?, `floodInterval` = ?, `floodMaxTime` = ?, ",
      "`floodBuffer` = ?, `floodMaxLine` = ?, `enabled` = ? ", "WHERE `serverid` = ? "],
    ["INSERT INTO `channels` ( `serverid`, `channel`, `url`, `notifywindow`, ",
      "`cmdChar`, `enabled`) VALUES ( ?, ?, ?, ?, ?, ? )"],
    ["INSERT INTO `servers` ( `server`, `port`, `password`, `nick`, ",
      "`username`, `realname`, `nickserv`, `nickservmsg`, `floodInterval`, ",
      "`floodMaxTime`, `floodBuffer`, `floodMaxLine`, `enabled` ) ",
      "VALUES ( ?, ?, ?, ?, ?, ?, ?, ?, ?, ?, ?, ?, ? )"],
    ["SELECT COUNT(msgid) FROM `irclog` ", "WHERE `msgType` = 0 OR `msgType` = 1 "],
    ["SELECT `chanid`, `nick`, `message`, `timestamp` FROM `irclog` ",
      "WHERE `msgType` = 0 OR `msgType` = 1 ", "LIMIT ?, 1000000"]]

/-- The patterns of `QueryTable`. -/
def queryTable : List CString := queryPieces.map fun pieces ↦ (pieces.map String.toList).flatten

end Beirdobot.Mysql
