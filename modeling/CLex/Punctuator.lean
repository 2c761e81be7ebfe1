import CLex.Character

namespace CLex

inductive Punctuator where
  | not | hash | percent | ampersand | leftParen | rightParen | star | plus | comma | minus | dot
  | slash | colon | semicolon | less | assign | greater | question | leftBracket | rightBracket
  | caret | leftBrace | pipe | rightBrace | tilde
  | arrow | plusAssign | andAssign | slashAssign | percentAssign | starAssign | orAssign
  | leftShiftAssign | rightShiftAssign | minusAssign | xorAssign | decrement | equal | greaterEqual
  | increment | lessEqual | andAnd | orOr | notEqual | leftShift | rightShift | ellipsis | hashHash
  deriving DecidableEq, Repr

namespace Punctuator

/-- What is known of a punctuator. -/
structure Entry where
  code : Nat
  name : String
  spelling : List Char

def entry : Punctuator → Entry
  | .not => ⟨33, "NOT", ['!']⟩
  | .hash => ⟨35, "HASH", ['#']⟩
  | .percent => ⟨37, "PERCENT", ['%']⟩
  | .ampersand => ⟨38, "AMPERSAND", ['&']⟩
  | .leftParen => ⟨40, "LPAREN", ['(']⟩
  | .rightParen => ⟨41, "RPAREN", [')']⟩
  | .star => ⟨42, "STAR", ['*']⟩
  | .plus => ⟨43, "PLUS", ['+']⟩
  | .comma => ⟨44, "COMMA", [',']⟩
  | .minus => ⟨45, "MINUS", ['-']⟩
  | .dot => ⟨46, "DOT", ['.']⟩
  | .slash => ⟨47, "SLASH", ['/']⟩
  | .colon => ⟨58, "COLON", [':']⟩
  | .semicolon => ⟨59, "SEMICOLON", [';']⟩
  | .less => ⟨60, "LT", ['<']⟩
  | .assign => ⟨61, "ASSIGN", ['=']⟩
  | .greater => ⟨62, "GT", ['>']⟩
  | .question => ⟨63, "QUESTION", ['?']⟩
  | .leftBracket => ⟨91, "LBRACKET", ['[']⟩
  | .rightBracket => ⟨93, "RBRACKET", [']']⟩
  | .caret => ⟨94, "CARET", ['^']⟩
  | .leftBrace => ⟨123, "LBRACE", ['\x7b']⟩
  | .pipe => ⟨124, "PIPE", ['|']⟩
  | .rightBrace => ⟨125, "RBRACE", ['\x7d']⟩
  | .tilde => ⟨126, "TILDE", ['~']⟩
  | .arrow => ⟨256, "ARROW", ['-', '>']⟩
  | .plusAssign => ⟨257, "PLUS_ASSIGN", ['+', '=']⟩
  | .andAssign => ⟨258, "AND_ASSIGN", ['&', '=']⟩
  | .slashAssign => ⟨259, "SLASH_ASSIGN", ['/', '=']⟩
  | .percentAssign => ⟨260, "PERCENT_ASSIGN", ['%', '=']⟩
  | .starAssign => ⟨261, "STAR_ASSIGN", ['*', '=']⟩
  | .orAssign => ⟨262, "OR_ASSIGN", ['|', '=']⟩
  | .leftShiftAssign => ⟨263, "LSHIFT_ASSIGN", ['<', '<', '=']⟩
  | .rightShiftAssign => ⟨264, "RSHIFT_ASSIGN", ['>', '>', '=']⟩
  | .minusAssign => ⟨265, "MINUS_ASSIGN", ['-', '=']⟩
  | .xorAssign => ⟨266, "XOR_ASSIGN", ['^', '=']⟩
  | .decrement => ⟨267, "DECREMENT", ['-', '-']⟩
  | .equal => ⟨268, "EQ", ['=', '=']⟩
  | .greaterEqual => ⟨269, "GE", ['>', '=']⟩
  | .increment => ⟨270, "INCREMENT", ['+', '+']⟩
  | .lessEqual => ⟨271, "LE", ['<', '=']⟩
  | .andAnd => ⟨272, "AND", ['&', '&']⟩
  | .orOr => ⟨273, "OR", ['|', '|']⟩
  | .notEqual => ⟨274, "NE", ['!', '=']⟩
  | .leftShift => ⟨275, "LSHIFT", ['<', '<']⟩
  | .rightShift => ⟨276, "RSHIFT", ['>', '>']⟩
  | .ellipsis => ⟨277, "ELLIPSIS", ['.', '.', '.']⟩
  | .hashHash => ⟨278, "HASHHASH", ['#', '#']⟩

def code (p : Punctuator) : Nat :=
  p.entry.code

def name (p : Punctuator) : String :=
  p.entry.name

def spelling (p : Punctuator) : String :=
  String.ofList p.entry.spelling

def all : List Punctuator :=
  [.not, .hash, .percent, .ampersand, .leftParen, .rightParen, .star, .plus, .comma, .minus, .dot,
    .slash, .colon, .semicolon, .less, .assign, .greater, .question, .leftBracket, .rightBracket,
    .caret, .leftBrace, .pipe, .rightBrace, .tilde, .arrow, .plusAssign, .andAssign, .slashAssign,
    .percentAssign, .starAssign, .orAssign, .leftShiftAssign, .rightShiftAssign, .minusAssign,
    .xorAssign, .decrement, .equal, .greaterEqual, .increment, .lessEqual, .andAnd, .orOr,
    .notEqual, .leftShift, .rightShift, .ellipsis, .hashHash]

def ofCode? (code : Int) : Option Punctuator :=
  all.find? fun p => (p.code : Int) == code

end Punctuator

end CLex
