/-!
The kinds of syntax tree nodes, with the names under which trees and messages show them. Only some kinds occur in
programs of this library; the list is complete so that every name of the family can be looked up.
-/

namespace Comparand

/-- A kind of node. Constructors are spelled as the kinds are printed. -/
inductive NodeKind where
  | XXX | NAME | NONAME | TYPE | PACK | LITERAL | ADD | SUB | OR | XOR | ADDSTR | ADDR | ANDAND | APPEND
  | ARRAYBYTESTR | ARRAYBYTESTRTMP | ARRAYRUNESTR | STRARRAYBYTE | STRARRAYBYTETMP | STRARRAYRUNE | AS
  | AS2 | AS2FUNC | AS2RECV | AS2MAPR | AS2DOTTYPE | ASOP | ASWB | CALL | CALLFUNC | CALLMETH | CALLINTER
  | CALLPART | CAP | CLOSE | CLOSURE | CMPIFACE | CMPSTR | COMPLIT | MAPLIT | STRUCTLIT | ARRAYLIT
  | SLICELIT | PTRLIT | CONV | CONVIFACE | CONVNOP | COPY | DCL | DCLFUNC | DCLFIELD | DCLCONST | DCLTYPE
  | DELETE | DOT | DOTPTR | DOTMETH | DOTINTER | XDOT | DOTTYPE | DOTTYPE2 | EQ | NE | LT | LE | GE | GT
  | IND | INDEX | INDEXMAP | KEY | STRUCTKEY | LEN | MAKE | MAKECHAN | MAKEMAP | MAKESLICE | MUL | DIV
  | MOD | LSH | RSH | AND | ANDNOT | NEW | NOT | COM | PLUS | MINUS | OROR | PANIC | PRINT | PRINTN
  | RISCVEXIT | PAREN | SEND | SLICE | SLICEARR | SLICESTR | SLICE3 | SLICE3ARR | RECOVER | RECV | RUNESTR
  | SELRECV | SELRECV2 | IOTA | REAL | IMAG | COMPLEX | BLOCK | BREAK | CASE | XCASE | CONTINUE | DEFER
  | EMPTY | FALL | XFALL | FOR | GOTO | IF | LABEL | PROC | RANGE | RETURN | SELECT | SWITCH | TYPESW
  | TCHAN | TMAP | TSTRUCT | TINTER | TFUNC | TARRAY | DDD | DDDARG | INLCALL | EFACE | ITAB | IDATA
  | SPTR | CLOSUREVAR | CFUNC | CHECKNIL | VARKILL | VARLIVE | INDREGSP | CMP | DEC | INC | EXTEND | HMUL
  | LROT | RROTC | RETJMP | PS | PC | SQRT | GETG
deriving DecidableEq

namespace NodeKind

/-- Every kind, in the order of its number. -/
def all : List NodeKind := [
  XXX, NAME, NONAME, TYPE, PACK, LITERAL, ADD, SUB, OR, XOR, ADDSTR, ADDR, ANDAND, APPEND, ARRAYBYTESTR,
  ARRAYBYTESTRTMP, ARRAYRUNESTR, STRARRAYBYTE, STRARRAYBYTETMP, STRARRAYRUNE, AS, AS2, AS2FUNC, AS2RECV,
  AS2MAPR, AS2DOTTYPE, ASOP, ASWB, CALL, CALLFUNC, CALLMETH, CALLINTER, CALLPART, CAP, CLOSE, CLOSURE,
  CMPIFACE, CMPSTR, COMPLIT, MAPLIT, STRUCTLIT, ARRAYLIT, SLICELIT, PTRLIT, CONV, CONVIFACE, CONVNOP,
  COPY, DCL, DCLFUNC, DCLFIELD, DCLCONST, DCLTYPE, DELETE, DOT, DOTPTR, DOTMETH, DOTINTER, XDOT, DOTTYPE,
  DOTTYPE2, EQ, NE, LT, LE, GE, GT, IND, INDEX, INDEXMAP, KEY, STRUCTKEY, LEN, MAKE, MAKECHAN, MAKEMAP,
  MAKESLICE, MUL, DIV, MOD, LSH, RSH, AND, ANDNOT, NEW, NOT, COM, PLUS, MINUS, OROR, PANIC, PRINT, PRINTN,
  RISCVEXIT, PAREN, SEND, SLICE, SLICEARR, SLICESTR, SLICE3, SLICE3ARR, RECOVER, RECV, RUNESTR, SELRECV,
  SELRECV2, IOTA, REAL, IMAG, COMPLEX, BLOCK, BREAK, CASE, XCASE, CONTINUE, DEFER, EMPTY, FALL, XFALL,
  FOR, GOTO, IF, LABEL, PROC, RANGE, RETURN, SELECT, SWITCH, TYPESW, TCHAN, TMAP, TSTRUCT, TINTER, TFUNC,
  TARRAY, DDD, DDDARG, INLCALL, EFACE, ITAB, IDATA, SPTR, CLOSUREVAR, CFUNC, CHECKNIL, VARKILL, VARLIVE,
  INDREGSP, CMP, DEC, INC, EXTEND, HMUL, LROT, RROTC, RETJMP, PS, PC, SQRT, GETG]

def name : NodeKind → String
  | .XXX => "XXX" | .NAME => "NAME" | .NONAME => "NONAME" | .TYPE => "TYPE" | .PACK => "PACK"
  | .LITERAL => "LITERAL" | .ADD => "ADD" | .SUB => "SUB" | .OR => "OR" | .XOR => "XOR"
  | .ADDSTR => "ADDSTR" | .ADDR => "ADDR" | .ANDAND => "ANDAND" | .APPEND => "APPEND"
  | .ARRAYBYTESTR => "ARRAYBYTESTR" | .ARRAYBYTESTRTMP => "ARRAYBYTESTRTMP"
  | .ARRAYRUNESTR => "ARRAYRUNESTR" | .STRARRAYBYTE => "STRARRAYBYTE"
  | .STRARRAYBYTETMP => "STRARRAYBYTETMP" | .STRARRAYRUNE => "STRARRAYRUNE" | .AS => "AS" | .AS2 => "AS2"
  | .AS2FUNC => "AS2FUNC" | .AS2RECV => "AS2RECV" | .AS2MAPR => "AS2MAPR" | .AS2DOTTYPE => "AS2DOTTYPE"
  | .ASOP => "ASOP" | .ASWB => "ASWB" | .CALL => "CALL" | .CALLFUNC => "CALLFUNC"
  | .CALLMETH => "CALLMETH" | .CALLINTER => "CALLINTER" | .CALLPART => "CALLPART" | .CAP => "CAP"
  | .CLOSE => "CLOSE" | .CLOSURE => "CLOSURE" | .CMPIFACE => "CMPIFACE" | .CMPSTR => "CMPSTR"
  | .COMPLIT => "COMPLIT" | .MAPLIT => "MAPLIT" | .STRUCTLIT => "STRUCTLIT" | .ARRAYLIT => "ARRAYLIT"
  | .SLICELIT => "SLICELIT" | .PTRLIT => "PTRLIT" | .CONV => "CONV" | .CONVIFACE => "CONVIFACE"
  | .CONVNOP => "CONVNOP" | .COPY => "COPY" | .DCL => "DCL" | .DCLFUNC => "DCLFUNC"
  | .DCLFIELD => "DCLFIELD" | .DCLCONST => "DCLCONST" | .DCLTYPE => "DCLTYPE" | .DELETE => "DELETE"
  | .DOT => "DOT" | .DOTPTR => "DOTPTR" | .DOTMETH => "DOTMETH" | .DOTINTER => "DOTINTER"
  | .XDOT => "XDOT" | .DOTTYPE => "DOTTYPE" | .DOTTYPE2 => "DOTTYPE2" | .EQ => "EQ" | .NE => "NE"
  | .LT => "LT" | .LE => "LE" | .GE => "GE" | .GT => "GT" | .IND => "IND" | .INDEX => "INDEX"
  | .INDEXMAP => "INDEXMAP" | .KEY => "KEY" | .STRUCTKEY => "STRUCTKEY" | .LEN => "LEN" | .MAKE => "MAKE"
  | .MAKECHAN => "MAKECHAN" | .MAKEMAP => "MAKEMAP" | .MAKESLICE => "MAKESLICE" | .MUL => "MUL"
  | .DIV => "DIV" | .MOD => "MOD" | .LSH => "LSH" | .RSH => "RSH" | .AND => "AND" | .ANDNOT => "ANDNOT"
  | .NEW => "NEW" | .NOT => "NOT" | .COM => "COM" | .PLUS => "PLUS" | .MINUS => "MINUS" | .OROR => "OROR"
  | .PANIC => "PANIC" | .PRINT => "PRINT" | .PRINTN => "PRINTN" | .RISCVEXIT => "RISCVEXIT"
  | .PAREN => "PAREN" | .SEND => "SEND" | .SLICE => "SLICE" | .SLICEARR => "SLICEARR"
  | .SLICESTR => "SLICESTR" | .SLICE3 => "SLICE3" | .SLICE3ARR => "SLICE3ARR" | .RECOVER => "RECOVER"
  | .RECV => "RECV" | .RUNESTR => "RUNESTR" | .SELRECV => "SELRECV" | .SELRECV2 => "SELRECV2"
  | .IOTA => "IOTA" | .REAL => "REAL" | .IMAG => "IMAG" | .COMPLEX => "COMPLEX" | .BLOCK => "BLOCK"
  | .BREAK => "BREAK" | .CASE => "CASE" | .XCASE => "XCASE" | .CONTINUE => "CONTINUE" | .DEFER => "DEFER"
  | .EMPTY => "EMPTY" | .FALL => "FALL" | .XFALL => "XFALL" | .FOR => "FOR" | .GOTO => "GOTO"
  | .IF => "IF" | .LABEL => "LABEL" | .PROC => "PROC" | .RANGE => "RANGE" | .RETURN => "RETURN"
  | .SELECT => "SELECT" | .SWITCH => "SWITCH" | .TYPESW => "TYPESW" | .TCHAN => "TCHAN" | .TMAP => "TMAP"
  | .TSTRUCT => "TSTRUCT" | .TINTER => "TINTER" | .TFUNC => "TFUNC" | .TARRAY => "TARRAY" | .DDD => "DDD"
  | .DDDARG => "DDDARG" | .INLCALL => "INLCALL" | .EFACE => "EFACE" | .ITAB => "ITAB" | .IDATA => "IDATA"
  | .SPTR => "SPTR" | .CLOSUREVAR => "CLOSUREVAR" | .CFUNC => "CFUNC" | .CHECKNIL => "CHECKNIL"
  | .VARKILL => "VARKILL" | .VARLIVE => "VARLIVE" | .INDREGSP => "INDREGSP" | .CMP => "CMP"
  | .DEC => "DEC" | .INC => "INC" | .EXTEND => "EXTEND" | .HMUL => "HMUL" | .LROT => "LROT"
  | .RROTC => "RROTC" | .RETJMP => "RETJMP" | .PS => "PS" | .PC => "PC" | .SQRT => "SQRT"
  | .GETG => "GETG"

/-- The number of a kind. -/
def index (k : NodeKind) : Nat := all.idxOf k

def ofName? (s : String) : Option NodeKind := all.find? (·.name == s)

end NodeKind
end Comparand
