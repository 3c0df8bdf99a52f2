import ModuleBridge.Text.Composite

/-!
# Replaced characters of domain names

Capitals, wide and narrow forms, ligatures and the like are replaced when a domain name is read, so
that names that look alike are alike. Characters that merely stand for others are not listed. A
character has the replacement of the first table that has it, and tables of runs may hold characters
that no name can have.
-/

namespace ModuleBridge

/-- Characters that are replaced by several, with a bar between two texts of a row. -/
def replacedTexts : List (Nat × String) :=
  [(0xa8, " \u0308"), (0xaf, " \u0304"), (0xb4, " \u0301"), (0xb8, " \u0327"),
    (0xbc, "1⁄4|1⁄2|3⁄4"), (0x130, "i\u0307"), (0x132, "ij|ij"), (0x13f, "l·|l·"), (0x149, "ʼn"),
    (0x1c4, "dž|dž|dž|lj|lj|lj|nj|nj|nj"), (0x1f1, "dz|dz|dz"),
    (0x2d8, " \u0306| \u0307| \u030a| \u0328| \u0303| \u030b"), (0x37a, " ι"),
    (0x384, " \u0301| \u0308\u0301"), (0x587, "եւ"), (0x675, "اٴ|وٴ|ۇٴ|يٴ"), (0xe33, "\u0e4dา"),
    (0xeb3, "\u0ecdາ"), (0xedc, "ຫນ|ຫມ"), (0xf77, "\u0fb2\u0f71\u0f80"),
    (0xf79, "\u0fb3\u0f71\u0f80"), (0x1e9a, "aʾ"),
    (0x1f80, "ἀι|ἁι|ἂι|ἃι|ἄι|ἅι|ἆι|ἇι|ἀι|ἁι|ἂι|ἃι|ἄι|ἅι|ἆι|ἇι|ἠι|ἡι|ἢι|ἣι|ἤι|ἥι|ἦι|ἧι|ἠι|ἡι|ἢι|ἣι"),
    (0x1f9c, "ἤι|ἥι|ἦι|ἧι|ὠι|ὡι|ὢι|ὣι|ὤι|ὥι|ὦι|ὧι|ὠι|ὡι|ὢι|ὣι|ὤι|ὥι|ὦι|ὧι"), (0x1fb2, "ὰι|αι|άι"),
    (0x1fb7, "ᾶι"), (0x1fbc, "αι| \u0313"), (0x1fbf, " \u0313| \u0342| \u0308\u0342|ὴι|ηι|ήι"),
    (0x1fc7, "ῆι"), (0x1fcc, "ηι| \u0313\u0300| \u0313\u0301| \u0313\u0342"),
    (0x1fdd, " \u0314\u0300| \u0314\u0301| \u0314\u0342"), (0x1fed, " \u0308\u0300| \u0308\u0301"),
    (0x1ff2, "ὼι|ωι|ώι"), (0x1ff7, "ῶι"), (0x1ffc, "ωι| \u0301| \u0314"), (0x2017, " \u0333"),
    (0x2033, "′′|′′′"), (0x2036, "‵‵|‵‵‵"), (0x203c, "!!"), (0x203e, " \u0305"),
    (0x2047, "??|?!|!?"), (0x2057, "′′′′"), (0x20a8, "rs"), (0x2100, "a/c|a/s"), (0x2103, "°c"),
    (0x2105, "c/o|c/u"), (0x2109, "°f"), (0x2116, "no"), (0x2120, "sm|tel|tm"), (0x213b, "fax"),
    (0x2150, "1⁄7|1⁄9|1⁄10|1⁄3|2⁄3|1⁄5|2⁄5|3⁄5|4⁄5|1⁄6|5⁄6|1⁄8|3⁄8|5⁄8|7⁄8|1⁄"),
    (0x2161, "ii|iii|iv"), (0x2165, "vi|vii|viii|ix"), (0x216a, "xi|xii"), (0x2171, "ii|iii|iv"),
    (0x2175, "vi|vii|viii|ix"), (0x217a, "xi|xii"), (0x2189, "0⁄3"), (0x222c, "∫∫|∫∫∫"),
    (0x222f, "∮∮|∮∮∮"),
    (0x2469, "10|11|12|13|14|15|16|17|18|19|20|(1)|(2)|(3)|(4)|(5)|(6)|(7)|(8)|(9)|(10)|(11)|(12)"),
    (0x2480, "(13)|(14)|(15)|(16)|(17)|(18)|(19)|(20)"),
    (0x249c, "(a)|(b)|(c)|(d)|(e)|(f)|(g)|(h)|(i)|(j)|(k)|(l)|(m)|(n)|(o)|(p)|(q)|(r)|(s)|(t)|(u)"),
    (0x24b1, "(v)|(w)|(x)|(y)|(z)"), (0x2a0c, "∫∫∫∫"), (0x2a74, "::=|==|==="),
    (0x309b, " \u3099| \u309a"), (0x309f, "より"), (0x30ff, "コト"),
    (0x3200, "(\u1100)|(\u1102)|(\u1103)|(\u1105)|(\u1106)|(\u1107)|(\u1109)|(\u110b)|(\u110c)"),
    (0x3209, "(\u110e)|(\u110f)|(\u1110)|(\u1111)|(\u1112)|(가)|(나)|(다)|(라)|(마)|(바)|(사)|(아)|(자)"),
    (0x3217, "(차)|(카)|(타)|(파)|(하)|(주)|(오전)|(오후)"),
    (0x3220, "(一)|(二)|(三)|(四)|(五)|(六)|(七)|(八)|(九)|(十)|(月)|(火)|(水)|(木)|(金)|(土)|(日)|(株)|(有)|(社)|(名)"),
    (0x3235, "(特)|(財)|(祝)|(労)|(代)|(呼)|(学)|(監)|(企)|(資)|(協)|(祭)|(休)|(自)|(至)"),
    (0x3250, "pte|21|22|23|24|25|26|27|28|29|30|31|32|33|34|35"), (0x327c, "참고|주의"),
    (0x32b1, "36|37|38|39|40|41|42|43|44|45|46|47|48|49|50|1月|2月|3月|4月|5月|6月|7月|8月|9月|10月|11月|12月"),
    (0x32cc, "hg|erg|ev|ltd"),
    (0x32ff, "令和|アパート|アルファ|アンペア|アール|イニング|インチ|ウォン|エスクード|エーカー|オンス|オーム|カイリ|カラット|カロリー|ガロン|ガンマ|ギガ|ギニー"),
    (0x3312, "キュリー|ギルダー|キロ|キログラム|キロメートル|キロワット|グラム|グラムトン|クルゼイロ|クローネ|ケース|コルナ|コーポ|サイクル|サンチーム|シリング"),
    (0x3322, "センチ|セント|ダース|デシ|ドル|トン|ナノ|ノット|ハイツ|パーセント|パーツ|バーレル|ピアストル|ピクル|ピコ|ビル|ファラッド|フィート|ブッシェル|フラン"),
    (0x3336, "ヘクタール|ペソ|ペニヒ|ヘルツ|ペンス|ページ|ベータ|ポイント|ボルト|ホン|ポンド|ホール|ホーン|マイクロ|マイル|マッハ|マルク|マンション|ミクロン|ミリ"),
    (0x334a, "ミリバール|メガ|メガトン|メートル|ヤード|ヤール|ユアン|リットル|リラ|ルピー|ルーブル|レム|レントゲン|ワット|0点|1点|2点|3点|4点|5点|6点"),
    (0x335f, "7点|8点|9点|10点|11点|12点|13点|14点|15点|16点|17点|18点|19点|20点|21点|22点|23点|24点|hpa|da|au|bar"),
    (0x3375, "ov|pc|dm|dm2|dm3|iu|平成|昭和|大正|明治|株式会社|pa|na|μa|ma|ka|kb|mb|gb|cal|kcal|pf|nf|μf|μg"),
    (0x338e, "mg|kg|hz|khz|mhz|ghz|thz|μl|ml|dl|kl|fm|nm|μm|mm|cm|km|mm2|cm2|m2|km2|mm3|cm3|m3"),
    (0x33a6, "km3|m∕s|m∕s2|pa|kpa|mpa|gpa|rad|rad∕s|rad∕s2|ps|ns|μs|ms|pv|nv|μv|mv|kv|mv|pw|nw|μw"),
    (0x33bd, "mw|kw|mw|kω|mω"), (0x33c3, "bq|cc|cd|c∕kg"),
    (0x33c8, "db|gy|ha|hp|in|kk|km|kt|lm|ln|log|lx|mb|mil|mol|ph"),
    (0x33d9, "ppm|pr|sr|sv|wb|v∕m|a∕m|1日|2日|3日|4日|5日|6日|7日|8日|9日|10日|11日|12日|13日|14日|15日|16日|17日"),
    (0x33f1, "18日|19日|20日|21日|22日|23日|24日|25日|26日|27日|28日|29日|30日|31日|gal"),
    (0xfb00, "ff|fi|fl|ffi|ffl|st|st"), (0xfb13, "մն|մե|մի|վն|մխ"), (0xfb4f, "אל"), (0xfbdd, "ۇٴ"),
    (0xfbea, "ئا|ئا|ئە|ئە|ئو|ئو|ئۇ|ئۇ|ئۆ|ئۆ|ئۈ|ئۈ|ئې|ئې|ئې|ئى|ئى|ئى"),
    (0xfc00, "ئج|ئح|ئم|ئى|ئي|بج|بح|بخ|بم|بى|بي|تج|تح|تخ|تم|تى|تي|ثج|ثم|ثى|ثي|جح|جم|حج|حم|خج|خح|خم"),
    (0xfc1c, "سج|سح|سخ|سم|صح|صم|ضج|ضح|ضخ|ضم|طح|طم|ظم|عج|عم|غج|غم|فج|فح|فخ|فم|فى|في|قح|قم|قى|قي|كا"),
    (0xfc38, "كج|كح|كخ|كل|كم|كى|كي|لج|لح|لخ|لم|لى|لي|مج|مح|مخ|مم|مى|مي|نج|نح|نخ|نم|نى|ني|هج|هم|هى"),
    (0xfc54, "هي|يج|يح|يخ|يم|يى|يي|ذ\u0670|ر\u0670|ى\u0670| \u064c\u0651| \u064d\u0651"),
    (0xfc60, " \u064e\u0651| \u064f\u0651| \u0650\u0651| \u0651\u0670|ئر|ئز|ئم|ئن|ئى|ئي|بر|بز|بم"),
    (0xfc6d, "بن|بى|بي|تر|تز|تم|تن|تى|تي|ثر|ثز|ثم|ثن|ثى|ثي|فى|في|قى|قي|كا|كل|كم|كى|كي|لم|لى|لي|ما"),
    (0xfc89, "مم|نر|نز|نم|نن|نى|ني|ى\u0670|ير|يز|يم|ين|يى|يي|ئج|ئح|ئخ|ئم|ئه|بج|بح|بخ|بم|به|تج|تح"),
    (0xfca3, "تخ|تم|ته|ثم|جح|جم|حج|حم|خج|خم|سج|سح|سخ|سم|صح|صخ|صم|ضج|ضح|ضخ|ضم|طح|ظم|عج|عم|غج|غم|فج"),
    (0xfcbf, "فح|فخ|فم|قح|قم|كج|كح|كخ|كل|كم|لج|لح|لخ|لم|له|مج|مح|مخ|مم|نج|نح|نخ|نم|نه|هج|هم"),
    (0xfcd9, "ه\u0670|يج|يح|يخ|يم|يه|ئم|ئه|بم|به|تم|ته|ثم|ثه|سم|سه|شم|شه|كل|كم|لم|نم|نه|يم|يه"),
    (0xfcf2, "ـ\u064e\u0651|ـ\u064f\u0651|ـ\u0650\u0651|طى|طي|عى|عي|غى|غي|سى|سي|شى|شي|حى|حي|جى|جي"),
    (0xfd03, "خى|خي|صى|صي|ضى|ضي|شج|شح|شخ|شم|شر|سر|صر|ضر|طى|طي|عى|عي|غى|غي|سى|سي|شى|شي|حى|حي|جى|جي"),
    (0xfd1f, "خى|خي|صى|صي|ضى|ضي|شج|شح|شخ|شم|شر|سر|صر|ضر|شج|شح|شخ|شم|سه|شه|طم|سج|سح|سخ|شج|شح|شخ|طم"),
    (0xfd3b, "ظم|ا\u064b|ا\u064b"),
    (0xfd50, "تجم|تحج|تحج|تحم|تخم|تمج|تمح|تمخ|جمح|جمح|حمي|حمى|سحج|سجح|سجى|سمح|سمح|سمج|سمم|سمم|صحح"),
    (0xfd65, "صحح|صمم|شحم|شحم|شجي|شمخ|شمخ|شمم|شمم|ضحى|ضخم|ضخم|طمح|طمح|طمم|طمي|عجم|عمم|عمم|عمى|غمم"),
    (0xfd7a, "غمي|غمى|فخم|فخم|قمح|قمم|لحم|لحي|لحى|لجج|لجج|لخم|لخم|لمح|لمح|محج|محم|محي|مجح|مجم|مخج"),
    (0xfd8f, "مخم"),
    (0xfd92, "مجخ|همج|همم|نحم|نحى|نجم|نجم|نجى|نمي|نمى|يمم|يمم|بخي|تجي|تجى|تخي|تخى|تمي|تمى|جمي|جحى"),
    (0xfda7, "جمى|سخى|صحي|شحي|ضحي|لجي|لمي|يحي|يجي|يمي|ممي|قمي|نحي|قمح|لحم|عمي|كمي|نجح|مخي|لجم|كمم"),
    (0xfdbc, "لجم|نجح|جحي|حجي|مجي|فمي|بحي|كمم|عجم|صمم|سخي|نجي"),
    (0xfdf0, "صلے|قلے|الله|اكبر|محمد|صلعم|رسول|عليه|وسلم|صلى|صلى الله عليه وسلم|جل جلاله|ریال"),
    (0xfe49, " \u0305| \u0305| \u0305| \u0305"), (0xfe70, " \u064b|ـ\u064b| \u064c"),
    (0xfe74, " \u064d"),
    (0xfe76, " \u064e|ـ\u064e| \u064f|ـ\u064f| \u0650|ـ\u0650| \u0651|ـ\u0651| \u0652|ـ\u0652"),
    (0xfef5, "لآ|لآ|لأ|لأ|لإ|لإ|لا|لا"), (0xffe3, " \u0304"),
    (0x1f101, "0,|1,|2,|3,|4,|5,|6,|7,|8,|9,"),
    (0x1f110, "(a)|(b)|(c)|(d)|(e)|(f)|(g)|(h)|(i)|(j)|(k)|(l)|(m)|(n)|(o)|(p)|(q)|(r)|(s)|(t)"),
    (0x1f124, "(u)|(v)|(w)|(x)|(y)|(z)|〔s〕"), (0x1f12d, "cd|wz"), (0x1f14a, "hv|mv|sd|ss|ppv|wc"),
    (0x1f16a, "mc|md|mr"), (0x1f190, "dj"), (0x1f200, "ほか|ココ"),
    (0x1f240, "〔本〕|〔三〕|〔二〕|〔安〕|〔点〕|〔打〕|〔盗〕|〔勝〕|〔敗〕")]

/-- Characters that are replaced by one each. -/
def replacedChars : List (Nat × String) :=
  [(0xa0, " "), (0xaa, "a"), (0xb2, "23"), (0xb5, "μ"), (0xb9, "1o"), (0x178, "ÿ"), (0x17f, "s"),
    (0x181, "ɓ"), (0x186, "ɔ"), (0x189, "ɖɗ"), (0x18e, "ǝəɛƒ"), (0x193, "ɠɣ"), (0x196, "ɩɨƙ"),
    (0x19c, "ɯɲ"), (0x19f, "ɵ"), (0x1a6, "ʀƨ"), (0x1a9, "ʃ"), (0x1ac, "ƭ"), (0x1ae, "ʈ"),
    (0x1b1, "ʊʋ"), (0x1b7, "ʒƹ"), (0x1bc, "ƽ"), (0x1f6, "ƕƿ"), (0x220, "ƞ"), (0x23a, "ⱥȼ"),
    (0x23d, "ƚⱦ"), (0x241, "ɂ"), (0x243, "ƀʉʌ"), (0x2b0, "hɦjrɹɻʁwy"), (0x2e0, "ɣlsxʕ"),
    (0x345, "ι"), (0x376, "ͷ"), (0x37f, "ϳ"), (0x386, "ά"), (0x388, "έήί"), (0x38c, "ό"),
    (0x38e, "ύώ"), (0x3cf, "ϗβθυύϋφπ"), (0x3f0, "κρσ"), (0x3f4, "θε"), (0x3f7, "ϸ"), (0x3f9, "σϻ"),
    (0x3fd, "ͻͼͽ"), (0x4c0, "ӏ"), (0xf0c, "་"), (0x10cd, "ⴭ"), (0x10fc, "ნ"),
    (0x1c80, "вдосттъѣꙋ\u1c8a"), (0x1d2c, "aæb"), (0x1d30, "deǝghijklmn"),
    (0x1d3c, "oȣprtuwaɐɑᴂbdeəɛɜg"), (0x1d4f, "kmŋoɔᴖᴗptuᴝɯvᴥβγδφχiruvβγρφχ"), (0x1d78, "н"),
    (0x1d9b, "ɒcɕðɜfɟɡɥɨɩɪᵻʝɭᶅʟɱɰɲɳɴɵɸʂʃƫʉʊᴜʋʌzʐʑʒθ"), (0x1e9b, "ṡ"), (0x1e9e, "ß"), (0x1f59, "ὑ"),
    (0x1f5b, "ὓ"), (0x1f5d, "ὕ"), (0x1f5f, "ὗ"), (0x1fb8, "ᾰᾱὰά"), (0x1fc8, "ὲέὴή"),
    (0x1fd8, "ῐῑὶί"), (0x1fe8, "ῠῡὺύῥ"), (0x1ff8, "ὸόὼώ"), (0x2000, "           "), (0x2011, "‐"),
    (0x202f, " "), (0x205f, " "), (0x2070, "0i"), (0x2074, "456789+−=()n0123456789+−=()"),
    (0x2090, "aeoxəhklmnpst"), (0x2102, "c"), (0x2107, "ɛ"), (0x210a, "ghhhhħiill"), (0x2115, "n"),
    (0x2119, "pqrrr"), (0x2124, "z"), (0x2126, "ω"), (0x2128, "z"), (0x212a, "kåbc"),
    (0x212f, "eefⅎmoאבגדi"), (0x213c, "πγγπ∑"), (0x2145, "ddeij"), (0x2160, "i"), (0x2164, "v"),
    (0x2169, "x"), (0x216c, "lcdmi"), (0x2174, "v"), (0x2179, "x"), (0x217c, "lcdm"), (0x2183, "ↄ"),
    (0x2460, "123456789"), (0x24ea, "0"), (0x2c60, "ⱡ"), (0x2c62, "ɫᵽɽ"), (0x2c6d, "ɑɱɐɒ"),
    (0x2c72, "ⱳ"), (0x2c75, "ⱶ"), (0x2c7c, "jvȿɀ"), (0x2cf2, "ⳳ"), (0x2d6f, "ⵡ"), (0x2e9f, "母"),
    (0x2ef3, "龟"),
    (0x2f00, "一丨丶丿乙亅二亠人儿入八冂冖冫几凵刀力勹匕匚匸十卜卩厂厶又口囗土士夂夊夕大女子宀寸小尢尸屮山巛工己巾干幺广廴廾弋弓彐彡彳心戈戶手支攴文斗斤方无日曰月木欠止歹殳毋"),
    (0x2f50, "比毛氏气水火爪父爻爿片牙牛犬玄玉瓜瓦甘生用田疋疒癶白皮皿目矛矢石示禸禾穴立竹米糸缶网羊羽老而耒耳聿肉臣自至臼舌舛舟艮色艸虍虫血行衣襾見角言谷豆豕豸貝赤走足身車辛"),
    (0x2fa0, "辰辵邑酉釆里金長門阜隶隹雨靑非面革韋韭音頁風飛食首香馬骨高髟鬥鬯鬲鬼魚鳥鹵鹿麥麻黃黍黑黹黽鼎鼓鼠鼻齊齒龍龜龠"), (0x3000, " "),
    (0x3002, "."), (0x3036, "〒"), (0x3038, "十卄卅"),
    (0x3131, "\u1100\u1101\u11aa\u1102\u11ac\u11ad\u1103\u1104\u1105"),
    (0x3140, "\u111a\u1106\u1107\u1108\u1121"),
    (0x3165, "\u1114\u1115\u11c7\u11c8\u11cc\u11ce\u11d3\u11d7\u11d9\u111c\u11dd\u11df\u111d\u111e"),
    (0x3173, "\u1120\u1122\u1123\u1127\u1129"),
    (0x317d, "\u1132\u1136\u1140\u1147\u114c\u11f1\u11f2\u1157\u1158\u1159\u1184\u1185\u1188\u1191"),
    (0x318b, "\u1192\u1194\u119e\u11a1"), (0x3192, "一二三四上中下甲乙丙丁天地人"), (0x3244, "問幼文箏"),
    (0x3260, "\u1100\u1102\u1103\u1105\u1106\u1107\u1109\u110b\u110c"), (0x326e, "가나다라마바사아자차카타파하"),
    (0x327e, "우"), (0x3280, "一二三四五六七八九十月火水木金土日株有社名特財祝労秘男女適優印注項休写正上中下左右医宗学監企資協夜"),
    (0x32d0, "アイウエオカキクケコサシスセソタチツテトナニヌネノハヒフヘホマミムメモヤユヨラリルレロワヰヱヲ"), (0xa69c, "ъь"), (0xa770, "ꝯ"),
    (0xa77d, "ᵹ"), (0xa78b, "ꞌ"), (0xa78d, "ɥ"), (0xa7aa, "ɦɜɡɬɪ"), (0xa7b0, "ʞʇʝꭓ"),
    (0xa7c4, "ꞔʂᶎ"), (0xa7cb, "ɤ"), (0xa7dc, "ƛ"), (0xa7f2, "cfqꟶ"), (0xa7f8, "ħœ"),
    (0xab5c, "ꜧꬷɫꭒ"), (0xab69, "ʍ"), (0xfb20, "עאדהכלםרת+"),
    (0xfb50, "ٱٱٻٻٻٻپپپپڀڀڀڀٺٺٺٺٿٿٿٿٹٹٹٹڤڤڤڤڦڦڦڦڄڄڄڄڃڃڃڃچچچچڇڇڇڇڍڍڌڌڎڎڈڈژژڑڑککککگگگگڳڳڳڳڱڱڱڱںں"),
    (0xfba0, "ڻڻڻڻۀۀہہہہھھھھےےۓۓ"), (0xfbd3, "ڭڭڭڭۇۇۆۆۈۈ"), (0xfbde, "ۋۋۅۅۉۉېېېېىى"),
    (0xfbfc, "یییی"), (0xfe10, ",、"), (0xfe13, ":;!?〖〗"), (0xfe31, "—–__()\x7b\x7d〔〕【】《》〈〉「」『』"),
    (0xfe4d, "___,、"), (0xfe54, ";:?!—()\x7b\x7d〔〕#&*+-<>="),
    (0xfe80, "ءآآأأؤؤإإئئئئااببببةةتتتتثثثثججججححححخخخخددذذررززسسسسششششصصصصضضضضططططظظظظععععغغغ"),
    (0xfed0, "غففففققققككككللللممممننننههههووىىيييي"),
    (0xff5f, "⦅⦆.「」、・ヲァィゥェォャュョッーアイウエオカキクケコサシスセソタチツテトナニヌネノハヒフヘホマミムメモヤユヨラリルレロワン\u3099\u309a"),
    (0xffa1, "\u1100\u1101\u11aa\u1102\u11ac\u11ad\u1103\u1104\u1105"),
    (0xffb0, "\u111a\u1106\u1107\u1108\u1121"), (0xffe0, "¢£¬"), (0xffe4, "¦¥₩"),
    (0xffe8, "│←↑→↓■○"), (0x10781, "ːˑæʙɓ"),
    (0x10787, "ʣꭦʥʤɖɗᶑɘɞʩɤɢɠʛħʜɧʄʪʫɬ𝼄ꞎɮ𝼅ʎ𝼆øɶɷqɺ𝼈ɽɾʀʨʦꭧʧʈⱱ"), (0x107b2, "ʏʡʢʘǀǁǂ𝼊𝼞"),
    (0x1d6a4, "ıȷ"), (0x1d7ca, "ϝϝ"),
    (0x1e039, "клмопрстуфхцчшыэюꚉәіјөүӏабвгдежзиклопсуфхцчшъыґіѕџҫꙑұ"), (0x1f12b, "cr"),
    (0x1f202, "サ"), (0x1f210, "手字双デ二多解天交映無料前後再新初終生販声吹演投捕一三遊左中右指走打禁空合満有月申割営配"), (0x1f250, "得可")]

def latinLetters : String := "abcdefghijklmnopqrstuvwxyz"

def asciiDigits : String := "0123456789"

/-- Runs of styled letters and digits: the first and last code points, and the plain characters,
which come again and again. -/
def styledRuns : List (Nat × Nat × String) :=
  [(0x24b6, 0x24e9, latinLetters), (0x1ccd6, 0x1ccef, latinLetters),
    (0x1ccf0, 0x1ccf9, asciiDigits), (0x1d400, 0x1d6a3, latinLetters),
    (0x1d6a8, 0x1d7c9, "αβγδεζηθικλμνξοπρθστυφχψω∇αβγδεζηθικλμνξοπρσστυφχψω∂εθκφρπ"),
    (0x1d7ce, 0x1d7ff, asciiDigits), (0x1ee00, 0x1eebb, "ابجدهوزحطيكلمنسعفصقرشتثخذضظغٮںڡٯ"),
    (0x1f130, 0x1f149, latinLetters), (0x1fbf0, 0x1fbf9, asciiDigits)]

/-- Runs where every second character is replaced by the one that follows it, from the first to the
last code point. -/
def pairedRuns : List (Nat × Nat) :=
  [(0x100, 0x136), (0x139, 0x147), (0x14a, 0x176), (0x179, 0x17d), (0x182, 0x184), (0x187, 0x18b),
    (0x1a0, 0x1a4), (0x1af, 0x1b5), (0x1cd, 0x1db), (0x1de, 0x1ee), (0x1f4, 0x232), (0x246, 0x24e),
    (0x370, 0x372), (0x3d8, 0x3ee), (0x460, 0x480), (0x48a, 0x4be), (0x4c1, 0x4cd), (0x4d0, 0x52e),
    (0x1e00, 0x1e94), (0x1ea0, 0x1efe), (0x2c67, 0x2c6b), (0x2c80, 0x2ce2), (0x2ceb, 0x2ced),
    (0xa640, 0xa66c), (0xa680, 0xa69a), (0xa722, 0xa72e), (0xa732, 0xa76e), (0xa779, 0xa77b),
    (0xa77e, 0xa786), (0xa790, 0xa792), (0xa796, 0xa7a8), (0xa7b4, 0xa7c2), (0xa7c7, 0xa7c9),
    (0xa7cc, 0xa7da)]

/-- Runs of other characters: the first and last code points, and what the first becomes. -/
def shiftedRuns : List (Nat × Nat × Nat) :=
  [(0xc0, 0xd6, 0xe0), (0xd8, 0xde, 0xf8), (0x391, 0x3ab, 0x3b1), (0x400, 0x40f, 0x450),
    (0x410, 0x42f, 0x430), (0x531, 0x556, 0x561), (0x10a0, 0x10c7, 0x2d00),
    (0x13f8, 0x13fd, 0x13f0), (0x1c90, 0x1cbf, 0x10d0), (0x1f08, 0x1f0f, 0x1f00),
    (0x1f18, 0x1f1d, 0x1f10), (0x1f28, 0x1f2f, 0x1f20), (0x1f38, 0x1f3f, 0x1f30),
    (0x1f48, 0x1f4d, 0x1f40), (0x1f68, 0x1f6f, 0x1f60), (0x2c00, 0x2c2f, 0x2c30),
    (0x313a, 0x313f, 0x11b0), (0x3145, 0x314e, 0x1109), (0x314f, 0x3163, 0x1161),
    (0x3178, 0x317c, 0x112b), (0x3269, 0x326d, 0x110e), (0xab70, 0xabbf, 0x13a0),
    (0xff01, 0xff20, 0x21), (0xff21, 0xff3a, 0x61), (0xff3b, 0xff5e, 0x5b),
    (0xffaa, 0xffaf, 0x11b0), (0xffb5, 0xffbe, 0x1109), (0xffc2, 0xffc7, 0x1161),
    (0xffca, 0xffcf, 0x1167), (0xffd2, 0xffd7, 0x116d), (0xffda, 0xffdc, 0x1173),
    (0x10400, 0x10427, 0x10428), (0x104b0, 0x104d3, 0x104d8), (0x10570, 0x10595, 0x10597),
    (0x10c80, 0x10cb2, 0x10cc0), (0x10d50, 0x10d65, 0x10d70), (0x118a0, 0x118bf, 0x118c0),
    (0x16e40, 0x16e5f, 0x16e60), (0x1e030, 0x1e038, 0x430), (0x1e900, 0x1e921, 0x1e922)]

/-- The one character that replaces a character of a run. -/
def replacedInRun? (code : Nat) : Option Char :=
  let styled? := styledRuns.findSome? fun (first, last, text) =>
    if first ≤ code && code ≤ last then text.toList[(code - first) % text.length]? else none
  let paired? := pairedRuns.findSome? fun (first, last) =>
    if first ≤ code && code ≤ last && (code - first) % 2 == 0 then some (Char.ofNat (code + 1))
    else none
  let shifted? := shiftedRuns.findSome? fun (first, last, image) =>
    if first ≤ code && code ≤ last then some (Char.ofNat (image + (code - first))) else none
  styled? <|> paired? <|> shifted?

/-- What a character is replaced by, if it is replaced. -/
def replacementOf? (c : Char) : Option (List Char) :=
  let text? := (entryOf? (·.splitOn "|") replacedTexts c.toNat).map String.toList
  let char? := entryOf? String.toList replacedChars c.toNat <|> replacedInRun? c.toNat
  text? <|> char?.map ([·])

end ModuleBridge
