import CellDisplay.Locale

/-! # Built-in format codes

A format index below 164 may stand for a code of its own. Two dialects differ in currency, in
the order of dates, and in the indices that only the Japanese one defines.
-/

namespace CellDisplay.FormatCode

/-- The codes that both dialects share. -/
def sharedCodes : List (Nat × String) :=
  [(0, "General"), (1, "0"), (2, "0.00"), (3, "#,##0"), (4, "#,##0.00"), (9, "0%"),
    (10, "0.00%"), (11, "0.00E+00"), (12, "# ?/?"), (13, "# ??/??"), (15, "d-mmm-yy"),
    (16, "d-mmm"), (17, "mmm-yy"), (18, "h:mm AM/PM"), (19, "h:mm:ss AM/PM"), (20, "h:mm"),
    (21, "h:mm:ss"), (37, "#,##0 ;(#,##0)"), (38, "#,##0 ;[Red](#,##0)"),
    (39, "#,##0.00;(#,##0.00)"), (40, "#,##0.00;[Red](#,##0.00)"), (45, "mm:ss"),
    (46, "[h]:mm:ss"), (47, "mmss.0"), (48, "##0.0E+0"), (49, "@")]

/-- The codes of the Western dialect alone. -/
def westernCodes : List (Nat × String) :=
  [(5, "\"$\"#,##0_);\\(\"$\"#,##0\\)"), (6, "\"$\"#,##0_);[Red]\\(\"$\"#,##0\\)"),
    (7, "\"$\"#,##0.00_);\\(\"$\"#,##0.00\\)"), (8, "\"$\"#,##0.00_);[Red]\\(\"$\"#,##0.00\\)"),
    (14, "m/d/yy"), (22, "m/d/yy h:mm"),
    (41, "_(* #,##0_);_(* \\(#,##0\\);_(* \"-\"_);_(@_)"),
    (42, "_(\"$\"* #,##0_);_(\"$\"* \\(#,##0\\);_(\"$\"* \"-\"_);_(@_)"),
    (43, "_(* #,##0.00_);_(* \\(#,##0.00\\);_(* \"-\"??_);_(@_)"),
    (44, "_(\"$\"* #,##0.00_);_(\"$\"* \\(#,##0.00\\);_(\"$\"* \"-\"??_);_(@_)")]

/-- The date code with the initial of the era. -/
def eraInitialCode : String := "[$-411]ge.m.d"

/-- The date code with the name of the era. -/
def eraNameCode : String := "[$-411]ggge\"年\"m\"月\"d\"日\""

/-- The code of a year and a month. -/
def yearMonthCode : String := "yyyy\"年\"m\"月\""

/-- The code of a month and a day. -/
def monthDayCode : String := "m\"月\"d\"日\""

/-- The codes of the Japanese dialect alone. -/
def japaneseCodes : List (Nat × String) :=
  [(5, "\"¥\"#,##0;\"¥\"\\-#,##0"), (6, "\"¥\"#,##0;[Red]\"¥\"\\-#,##0"),
    (7, "\"¥\"#,##0.00;\"¥\"\\-#,##0.00"), (8, "\"¥\"#,##0.00;[Red]\"¥\"\\-#,##0.00"),
    (14, "yyyy/m/d"), (22, "yyyy/m/d h:mm"), (27, eraInitialCode), (28, eraNameCode),
    (29, eraNameCode), (30, "m/d/yy"), (31, "yyyy\"年\"m\"月\"d\"日\""), (32, "h\"時\"mm\"分\""),
    (33, "h\"時\"mm\"分\"ss\"秒\""), (34, yearMonthCode), (35, monthDayCode),
    (36, eraInitialCode), (41, "_ * #,##0_ ;_ * \\-#,##0_ ;_ * \"-\"_ ;_ @_ "),
    (42, "_ \"¥\"* #,##0_ ;_ \"¥\"* \\-#,##0_ ;_ \"¥\"* \"-\"_ ;_ @_ "),
    (43, "_ * #,##0.00_ ;_ * \\-#,##0.00_ ;_ * \"-\"??_ ;_ @_ "),
    (44, "_ \"¥\"* #,##0.00_ ;_ \"¥\"* \\-#,##0.00_ ;_ \"¥\"* \"-\"??_ ;_ @_ "),
    (50, eraInitialCode), (51, eraNameCode), (52, yearMonthCode), (53, monthDayCode),
    (54, eraNameCode), (55, yearMonthCode), (56, monthDayCode), (57, eraInitialCode),
    (58, eraNameCode)]

/-- The codes of a dialect, of which the first one for an index counts. -/
def builtinCodes : Dialect → List (Nat × String)
  | .western => westernCodes ++ sharedCodes
  | .japanese => japaneseCodes ++ sharedCodes

/-- The built-in code of an index. -/
def builtin? (index : Nat) (dialect : Dialect) : Option Text :=
  ((builtinCodes dialect).lookup index).map String.toList

/-- The index has a built-in code. -/
def isBuiltin (index : Nat) (dialect : Dialect) : Bool := (builtin? index dialect).isSome

end CellDisplay.FormatCode
