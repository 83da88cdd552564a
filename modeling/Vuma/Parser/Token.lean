import Mathlib

/-!
# Tokens

The tokens of the source language and its keywords. A token has its kind and its text; its place in
the source is left out.
-/

namespace Vuma.Parser

/-- `TokenKind`. Variants that are words of this language end in `Kw`. -/
inductive TokenKind where
  | number | address | float | string | char | byteStr | rawStr | ident | underscore | lParen
  | rParen | lBrace | rBrace | lBracket | rBracket | plus | minus | star | slash | percent
  | ampersand | pipe | caret | tilde | bang | assign | eqEq | ne | lt | le | gt | ge | shl | shr
  | andAnd | orOr | arrow | fatArrow | pathSep | colon | semicolon | comma | dot | dotDot
  | ellipsis | dotDotEq | ampersat | hash | dollar | question | plusEq | minusEq | starEq
  | slashEq | percentEq | ampEq | pipeEq | caretEq | shlEq | shrEq | fnKw | transform | letKw
  | pubKw | crateKw | ptr | region | alloc | allocate | free | derive | cast | read | write | sync
  | ifKw | elseKw | whileKw | forKw | returnKw | structKw | enumKw | matchKw | unsafeKw | safe
  | bd | repd | capd | reld | importKw | exportKw | modKw | useKw | selfKw | super | async | await
  | spawn | lock | unlock | channel | send | recv | trueKw | falseKw | null | as | sizeof
  | alignof | breakKw | continueKw | loopKw | whereKw | implKw | traitKw | typeKw | constKw
  | staticKw | mutKw | refKw | externKw | atomicLoad | atomicStore | atomicCas | optionKw | someKw
  | noneKw | resultKw | okKw | errKw | ctSelect | ctEq | syscall | requires | ensures | prove
  | require | formatStr | macroIdent | docComment | moduleDoc | error | eof
  deriving DecidableEq, Repr

structure Token where
  kind : TokenKind
  lexeme : String
  deriving DecidableEq, Repr

def keywordKind : String → Option TokenKind
  | "transform" => some .transform
  | "let" => some .letKw
  | "pub" => some .pubKw
  | "crate" => some .crateKw
  | "if" => some .ifKw
  | "else" => some .elseKw
  | "while" => some .whileKw
  | "for" => some .forKw
  | "return" => some .returnKw
  | "as" => some .as
  | "match" => some .matchKw
  | "struct" => some .structKw
  | "enum" => some .enumKw
  | "break" => some .breakKw
  | "continue" => some .continueKw
  | "loop" => some .loopKw
  | "type" => some .typeKw
  | "const" => some .constKw
  | "static" => some .staticKw
  | "mut" => some .mutKw
  | "where" => some .whereKw
  | "impl" => some .implKw
  | "trait" => some .traitKw
  | "region" => some .region
  | "allocate" => some .allocate
  | "free" => some .free
  | "derive" => some .derive
  | "cast" => some .cast
  | "read" => some .read
  | "write" => some .write
  | "sync" => some .sync
  | "async" => some .async
  | "await" => some .await
  | "spawn" => some .spawn
  | "channel" => some .channel
  | "Channel" => some .channel
  | "send" => some .send
  | "recv" => some .recv
  | "extern" => some .externKw
  | "atomic_load" => some .atomicLoad
  | "atomic_store" => some .atomicStore
  | "atomic_cas" => some .atomicCas
  | "unsafe" => some .unsafeKw
  | "bd" => some .bd
  | "repd" => some .repd
  | "capd" => some .capd
  | "reld" => some .reld
  | "import" => some .importKw
  | "export" => some .exportKw
  | "mod" => some .modKw
  | "super" => some .super
  | "true" => some .trueKw
  | "false" => some .falseKw
  | "null" => some .null
  | "sizeof" => some .sizeof
  | "alignof" => some .alignof
  | "Option" => some .optionKw
  | "Some" => some .someKw
  | "None" => some .noneKw
  | "Result" => some .resultKw
  | "Ok" => some .okKw
  | "Err" => some .errKw
  | "ct_select" => some .ctSelect
  | "ct_eq" => some .ctEq
  | "syscall" => some .syscall
  | "requires" => some .requires
  | "ensures" => some .ensures
  | "prove" => some .prove
  | "require" => some .require
  | _ => none

end Vuma.Parser
